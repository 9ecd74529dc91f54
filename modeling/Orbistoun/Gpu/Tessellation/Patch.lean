import Orbistoun.Gpu.Tessellation.Factor

/-! # The points of a patch

A quad or triangle patch's points, each `(u, v)` in fixed point and in the order they are defined:
the outer ring edge by edge, then the inner rings, then an even patch's middle. An edge of the outer
ring is placed from its own factor alone.
-/

namespace Orbistoun.Gpu.Tessellation

inductive Processed (α : Type) where
  | culled
  | minimum
  | full (factors : α)

def MIN_ODD_PLUS_HALF_EPSILON : Nat := 0x3f800040
def MIN_ODD_PLUS_EPSILON : Nat := 0x3f800080

/-- Whether an edge's factor culls its patch: it is not above zero, or a NaN. -/
def culls (factor : Nat) : Bool := !less 0 factor

/-- Any of these factors past one forces the inside ones past one. -/
def insideLower (partitioning : Partitioning) (factors : List Nat) : Nat :=
  if partitioning = .fractionalOdd ∧ factors.any (less MIN_ODD_PLUS_HALF_EPSILON) then
    MIN_ODD_PLUS_EPSILON
  else (bounds partitioning).1

/-- How many points an inside factor makes; the floor allows degenerate regions where it is 1. -/
def insidePointsOf (parity : Parity) (factor : Nat) : Nat :=
  max (pointsForFactor parity factor) (if parity = .odd then 4 else 3)

/-! ## Quads -/

structure QuadFactors where
  outsideParity : Fin 4 → Parity
  insideParity : Fin 2 → Parity
  outsideContext : Fin 4 → FactorContext
  insideContext : Fin 2 → FactorContext
  outsidePoints : Fin 4 → Nat
  insidePoints : Fin 2 → Nat
  pointCount : Nat

def quadFactors (partitioning : Partitioning) (parity : Parity) (outside : Fin 4 → Nat)
    (inside : Fin 2 → Nat) : Processed QuadFactors :=
  if (List.ofFn outside).any culls then .culled
  else
    let outsideClamped := fun edge => outsideFactor partitioning (outside edge)
    let lower := insideLower partitioning
      (List.ofFn (fun edge => fmin (bounds partitioning).2 (fmax (bounds partitioning).1
        (outside edge))) ++ List.ofFn inside)
    let insideClamped := fun axis => clamped partitioning lower (bounds partitioning).2 (inside axis)
    let outsideParity := fun edge => outsideParity partitioning (outsideClamped edge)
    let insideParity := fun axis => insideParity partitioning (insideClamped axis)
    let fixedOutside := fun edge => floatToFixed (outsideClamped edge)
    let fixedInside := fun axis => floatToFixed (insideClamped axis)
    if (integerPartitioning partitioning || parity == .odd) &&
        (List.ofFn fixedInside ++ List.ofFn fixedOutside).all (· == ONE) then .minimum
    else
      let outsidePoints := fun edge => pointsForFactor (outsideParity edge) (fixedOutside edge)
      let insidePoints := fun axis => insidePointsOf (insideParity axis) (fixedInside axis)
      .full
        { outsideParity
          insideParity
          outsideContext := fun edge => factorContext (outsideParity edge) (fixedOutside edge)
          insideContext := fun axis => factorContext (insideParity axis) (fixedInside axis)
          outsidePoints
          insidePoints
          pointCount := (List.ofFn outsidePoints).sum - 4 +
            (insidePoints 0 - 2) * (insidePoints 1 - 2) }

def quadOuterEdge (factors : QuadFactors) (edge : Fin 4) : List (Nat × Nat) :=
  let last := factors.outsidePoints edge - 1
  (List.range last).map fun p =>
    let q := if edge = 1 ∨ edge = 2 then p else last - p
    let param := placePoint (factors.outsideParity edge) (factors.outsideContext edge) q
    if edge.val &&& 1 = 1 then (param, if edge = 3 then ONE else 0)
    else (if edge = 2 then ONE else 0, param)

def quadInnerEdge (factors : QuadFactors) (ring : Nat) (edge : Fin 4) : List (Nat × Nat) :=
  let start := ring
  let last := fun axis => factors.insidePoints axis - 1 - start
  let across : Fin 2 := if edge.val &&& 1 = 0 then 0 else 1
  let along : Fin 2 := if edge.val &&& 1 = 0 then 1 else 0
  let perpendicular := placePoint (factors.insideParity across) (factors.insideContext across)
    (if edge.val < 2 then start else last across)
  (List.range (last along - start)).map fun i =>
    let q := if edge = 1 ∨ edge = 2 then start + i else last along - i
    let param := placePoint (factors.insideParity along) (factors.insideContext along) q
    if along = 1 then (perpendicular, param) else (param, perpendicular)

def quadMiddle (factors : QuadFactors) : List (Nat × Nat) :=
  let rings := min (factors.insidePoints 0) (factors.insidePoints 1) >>> 1
  if factors.insidePoints 1 < factors.insidePoints 0 ∧ factors.insideParity 1 = .even then
    (List.range (factors.insidePoints 0 - 1 - rings + 1 - rings)).map fun i =>
      (placePoint (factors.insideParity 0) (factors.insideContext 0) (rings + i), ONE_HALF)
  else if factors.insidePoints 0 ≤ factors.insidePoints 1 ∧ factors.insideParity 0 = .even then
    (List.range (factors.insidePoints 1 - 1 - rings + 1 - rings)).reverse.map fun i =>
      (ONE_HALF, placePoint (factors.insideParity 1) (factors.insideContext 1) (rings + i))
  else []

/-- The outer ring clockwise from the top left, then each inner ring spiralling in, then an even
patch's middle row. -/
def quadPoints (factors : QuadFactors) : List (Nat × Nat) :=
  let rings := min (factors.insidePoints 0) (factors.insidePoints 1) >>> 1
  (List.finRange 4).flatMap (quadOuterEdge factors) ++
    (List.range (rings - 1)).flatMap (fun i =>
      (List.finRange 4).flatMap (quadInnerEdge factors (i + 1))) ++
    quadMiddle factors

def quadCorners : List (Nat × Nat) := [(0, 0), (ONE, 0), (ONE, ONE), (0, ONE)]

def quad (partitioning : Partitioning) (parity : Parity) (outside : Fin 4 → Nat)
    (inside : Fin 2 → Nat) : List (Nat × Nat) :=
  match quadFactors partitioning parity outside inside with
  | .culled => []
  | .minimum => quadCorners
  | .full factors => (quadPoints factors).take factors.pointCount

/-! ## Triangles -/

structure TriangleFactors where
  outsideParity : Fin 3 → Parity
  insideParity : Parity
  outsideContext : Fin 3 → FactorContext
  insideContext : FactorContext
  outsidePoints : Fin 3 → Nat
  insidePoints : Nat
  pointCount : Nat

def triangleFactors (partitioning : Partitioning) (parity : Parity) (outside : Fin 3 → Nat)
    (inside : Nat) : Processed TriangleFactors :=
  if (List.ofFn outside).any culls then .culled
  else
    let outsideClamped := fun edge => outsideFactor partitioning (outside edge)
    let lower := insideLower partitioning
      (List.ofFn (fun edge => fmin (bounds partitioning).2 (fmax (bounds partitioning).1
        (outside edge))))
    let insideClamped := clamped partitioning lower (bounds partitioning).2 inside
    let outsideParity := fun edge => outsideParity partitioning (outsideClamped edge)
    let insideParity := insideParity partitioning insideClamped
    let fixedOutside := fun edge => floatToFixed (outsideClamped edge)
    let fixedInside := floatToFixed insideClamped
    if (integerPartitioning partitioning || parity == .odd) && fixedInside == ONE &&
        (List.ofFn fixedOutside).all (· == ONE) then .minimum
    else
      let outsidePoints := fun edge => pointsForFactor (outsideParity edge) (fixedOutside edge)
      let insidePoints := insidePointsOf insideParity fixedInside
      let interiorRings := (insidePoints >>> 1) - 1
      .full
        { outsideParity
          insideParity
          outsideContext := fun edge => factorContext (outsideParity edge) (fixedOutside edge)
          insideContext := factorContext insideParity fixedInside
          outsidePoints
          insidePoints
          pointCount := (List.ofFn outsidePoints).sum - 3 +
            (if insideParity = .odd then 3 * (interiorRings * (interiorRings + 1) - interiorRings)
              else 3 * (interiorRings * (interiorRings + 1)) + 1) }

def triangleOuterEdge (factors : TriangleFactors) (edge : Fin 3) : List (Nat × Nat) :=
  let last := factors.outsidePoints edge - 1
  (List.range last).map fun p =>
    let q := if edge.val &&& 1 = 1 then p else last - p
    let param := placePoint (factors.outsideParity edge) (factors.outsideContext edge) q
    if edge = 0 then (0, param)
    else (param, if edge = 2 then wrappingSub ONE param else 0)

def triangleInnerEdge (factors : TriangleFactors) (ring : Nat) (edge : Fin 3) : List (Nat × Nat) :=
  let start := ring
  let last := factors.insidePoints - 1 - start
  -- scaled into barycentric space and back to 16.16
  let perpendicular := wrappingAdd
    (wrappingMul (placePoint factors.insideParity factors.insideContext start) TWO_THIRDS) ONE_HALF
      >>> FRACTION_BITS
  (List.range (last - start)).map fun i =>
    let q := if edge.val &&& 1 = 1 then start + i else last - i
    let param := placePoint factors.insideParity factors.insideContext q
    let along := wrappingSub param (wrappingAdd perpendicular 1 / 2)
    if edge = 0 then (perpendicular, along)
    else if edge = 1 then (along, perpendicular)
    else (along, wrappingSub (wrappingSub ONE along) perpendicular)

/-- The outer ring clockwise from `v = 1`, then each inner ring spiralling in, then an even patch's
centre. -/
def trianglePoints (factors : TriangleFactors) : List (Nat × Nat) :=
  let rings := factors.insidePoints >>> 1
  (List.finRange 3).flatMap (triangleOuterEdge factors) ++
    (List.range (rings - 1)).flatMap (fun i =>
      (List.finRange 3).flatMap (triangleInnerEdge factors (i + 1))) ++
    (if factors.insideParity = .odd then [] else [(ONE_THIRD, ONE_THIRD)])

def triangleCorners : List (Nat × Nat) := [(0, ONE), (0, 0), (ONE, 0)]

def triangle (partitioning : Partitioning) (parity : Parity) (outside : Fin 3 → Nat)
    (inside : Nat) : List (Nat × Nat) :=
  match triangleFactors partitioning parity outside inside with
  | .culled => []
  | .minimum => triangleCorners
  | .full factors => (trianglePoints factors).take factors.pointCount

/-! ## The outer ring -/

/-- The points a factor places along its edge, whatever patch the edge is of. -/
def edgeSequence (partitioning : Partitioning) (factor : Nat) : List Nat :=
  let clampedFactor := outsideFactor partitioning factor
  let parity := outsideParity partitioning clampedFactor
  (List.range (pointsForFactor parity (floatToFixed clampedFactor))).map
    (edgePoint parity (floatToFixed clampedFactor))

/-- A list of points in the direction a ring runs along its edge. -/
def oriented {α : Type} (rising : Bool) (points : List α) : List α :=
  if rising then points else points.reverse

/-- A patch's points begin with a ring, in runs one an edge; each with the next one's first point
is what lies along its edge, corner to corner. -/
def RingOf {n : Nat} (points : List (Nat × Nat)) (along : Fin (n + 1) → List (Nat × Nat)) : Prop :=
  ∃ first : Fin (n + 1), ∃ runs : Fin (n + 1) → List (Nat × Nat), ∃ rest,
    points = (List.finRange (n + 1)).flatMap (fun i => runs (first + i)) ++ rest ∧
      ∀ edge, runs edge ++ (runs (edge + 1)).take 1 = along edge

theorem run_and_corner {α : Type} (place : Nat → α) (rising : Bool) {count : Nat} (h : 2 ≤ count) :
    (List.range (count - 1)).map (fun p => place (if rising then p else count - 1 - p)) ++
        [place (if rising then count - 1 else 0)] =
      oriented rising ((List.range count).map place) := by
  obtain ⟨last, rfl⟩ : ∃ last, count = last + 1 := ⟨count - 1, by omega⟩
  rw [Nat.add_sub_cancel]
  cases rising with
  | true =>
    show (List.range last).map (fun p => place p) ++ [place last] = (List.range (last + 1)).map place
    rw [List.range_succ, List.map_append]
    rfl
  | false =>
    show (List.range last).map (fun p => place (last - p)) ++ [place 0] =
      ((List.range (last + 1)).map place).reverse
    apply List.ext_getElem
    · simp
    · intro i hi hi'
      simp only [List.length_append, List.length_map, List.length_range, List.length_cons,
        List.length_nil] at hi
      rw [List.getElem_reverse]
      by_cases hlast : i < last
      · rw [List.getElem_append_left (by simpa using hlast)]
        simp
      · rw [List.getElem_append_right (by simpa using hlast)]
        have heq : i = last := by omega
        simp [heq]

theorem run_first {α : Type} (place : Nat → α) (rising : Bool) {count : Nat} (h : 2 ≤ count) :
    ((List.range (count - 1)).map (fun p => place (if rising then p else count - 1 - p))).take 1 =
      [place (if rising then 0 else count - 1)] := by
  obtain ⟨last, rfl⟩ : ∃ last, count = last + 2 := ⟨count - 2, by omega⟩
  show ((List.range (last + 1)).map _).take 1 = _
  rw [List.range_succ_eq_map]
  cases rising with
  | true => rfl
  | false => rfl

/-- The edges of a polygon: where a place along one is, and which way the ring runs along it. -/
structure Polygon (n : Nat) where
  embed : Fin (n + 1) → Nat → Nat × Nat
  rises : Fin (n + 1) → Bool
  corner : ∀ edge, embed edge (if rises edge then ONE else 0) =
    embed (edge + 1) (if rises (edge + 1) then 0 else ONE)

def Polygon.run {n : Nat} (polygon : Polygon n) (parity : Parity) (factor : Nat)
    (edge : Fin (n + 1)) : List (Nat × Nat) :=
  (List.range (pointsForFactor parity factor - 1)).map fun p =>
    polygon.embed edge (edgePoint parity factor
      (if polygon.rises edge then p else pointsForFactor parity factor - 1 - p))

theorem two_points {parity : Parity} {factor : Nat} (h : InBounds parity factor) :
    2 ≤ pointsForFactor parity factor := by
  have hpoints := (factor_bounded h).points
  rw [pointsForFactor_eq h]
  omega

theorem Polygon.ringOf {n : Nat} (polygon : Polygon n) {parity : Fin (n + 1) → Parity}
    {factor : Fin (n + 1) → Nat} (h : ∀ edge, InBounds (parity edge) (factor edge))
    {points rest : List (Nat × Nat)} (first : Fin (n + 1))
    (hpoints : points = (List.finRange (n + 1)).flatMap (fun i =>
      polygon.run (parity (first + i)) (factor (first + i)) (first + i)) ++ rest) :
    RingOf points (fun edge => oriented (polygon.rises edge)
      (((List.range (pointsForFactor (parity edge) (factor edge))).map
        (edgePoint (parity edge) (factor edge))).map (polygon.embed edge))) := by
  refine ⟨first, fun edge => polygon.run (parity edge) (factor edge) edge, rest, hpoints, ?_⟩
  intro edge
  have hplaced := edgePlaced (h edge)
  have hnext := edgePlaced (h (edge + 1))
  have hcorner := run_and_corner
    (fun k => polygon.embed edge (edgePoint (parity edge) (factor edge) k)) (polygon.rises edge)
    (two_points (h edge))
  have hfirst := run_first
    (fun k => polygon.embed (edge + 1) (edgePoint (parity (edge + 1)) (factor (edge + 1)) k))
    (polygon.rises (edge + 1)) (two_points (h (edge + 1)))
  have hsame : polygon.embed (edge + 1) (edgePoint (parity (edge + 1)) (factor (edge + 1))
        (if polygon.rises (edge + 1) then 0
          else pointsForFactor (parity (edge + 1)) (factor (edge + 1)) - 1)) =
      polygon.embed edge (edgePoint (parity edge) (factor edge)
        (if polygon.rises edge then pointsForFactor (parity edge) (factor edge) - 1 else 0)) := by
    rw [apply_ite (edgePoint (parity (edge + 1)) (factor (edge + 1))), hnext.first, hnext.last,
      apply_ite (edgePoint (parity edge) (factor edge)), hplaced.first, hplaced.last]
    exact (polygon.corner edge).symm
  unfold Polygon.run
  rw [hfirst, hsame, hcorner]
  show _ = oriented (polygon.rises edge) (List.map (polygon.embed edge) (List.map _ _))
  rw [List.map_map]
  rfl

/-- The edges of a quad: `u = 0`, `v = 0`, `u = 1` and `v = 1`. -/
def quadPolygon : Polygon 3 where
  embed edge along :=
    match edge with
    | 0 => (0, along)
    | 1 => (along, 0)
    | 2 => (ONE, along)
    | 3 => (along, ONE)
  rises edge := edge == 1 || edge == 2
  corner := by decide

def trianglePolygon : Polygon 2 where
  embed edge along :=
    match edge with
    | 0 => (0, along)
    | 1 => (along, 0)
    | 2 => (along, wrappingSub ONE along)
  rises edge := edge == 1
  corner := by decide

theorem whole_one :
    ∀ e < 7, ∀ j < 2 ^ e + 1, floatToFixed (((127 + e) * 2 ^ e + j) * 2 ^ (23 - e)) = ONE →
      isEven (((127 + e) * 2 ^ e + j) * 2 ^ (23 - e)) = false := by
  decide +kernel

theorem odd_of_one {partitioning : Partitioning} {factor : Nat}
    (h : floatToFixed (outsideFactor partitioning factor) = ONE) :
    outsideParity partitioning (outsideFactor partitioning factor) = .odd := by
  have hone : Normal MIN_ODD_FACTOR := ⟨by decide, by decide⟩
  have htwo : Normal MIN_EVEN_FACTOR := ⟨by decide, by decide⟩
  have heven : Normal MAX_EVEN_FACTOR := ⟨by decide, by decide⟩
  have hwhole : floatToFixed (ceil (fmin MAX_EVEN_FACTOR (fmax MIN_ODD_FACTOR factor))) = ONE →
      (if isEven (ceil (fmin MAX_EVEN_FACTOR (fmax MIN_ODD_FACTOR factor))) then Parity.even
        else .odd) = .odd := by
    obtain ⟨hlow, hhigh⟩ := clamp_within hone heven (by decide) factor
    obtain ⟨e, j, hceil, he, hj, _⟩ := ceil_whole hlow hhigh
    intro hfixed
    rw [hceil] at hfixed ⊢
    rw [whole_one e he j hj hfixed]
    rfl
  cases partitioning with
  | integer => exact hwhole h
  | pow2 => exact hwhole h
  | fractionalOdd => rfl
  | fractionalEven =>
    obtain ⟨hlow, hhigh⟩ := clamp_within htwo heven (by decide) factor
    have hfixed := (floatToFixed_within (Nat.le_trans (by decide) hlow) hhigh).2.2.1 hlow
    have hsame : floatToFixed (fmin MAX_EVEN_FACTOR (fmax MIN_EVEN_FACTOR factor)) = ONE := h
    rw [hsame] at hfixed
    exact absurd hfixed (by decide)

def edgeParity (partitioning : Partitioning) (factor : Nat) : Parity :=
  outsideParity partitioning (outsideFactor partitioning factor)

def edgeFactor (partitioning : Partitioning) (factor : Nat) : Nat :=
  floatToFixed (outsideFactor partitioning factor)

theorem not_culled {n : Nat} {outside : Fin n → Nat} (h : ∀ edge, culls (outside edge) = false) :
    (List.ofFn outside).any culls = false := by
  rw [List.any_eq_false]
  intro factor hfactor
  obtain ⟨edge, rfl⟩ := (List.mem_ofFn' _ _).mp hfactor
  simp [h edge]

theorem all_one {n : Nat} {factor : Fin n → Nat} (h : (List.ofFn factor).all (· == ONE) = true)
    (edge : Fin n) : factor edge = ONE :=
  beq_iff_eq.mp (List.all_eq_true.mp h _ ((List.mem_ofFn' _ _).mpr ⟨edge, rfl⟩))

theorem runs_length {n : Nat} (polygon : Polygon n) {parity : Fin (n + 1) → Parity}
    {factor : Fin (n + 1) → Nat} (h : ∀ edge, InBounds (parity edge) (factor edge)) :
    ((List.finRange (n + 1)).flatMap (fun edge =>
        polygon.run (parity edge) (factor edge) edge)).length =
      (List.ofFn (fun edge => pointsForFactor (parity edge) (factor edge))).sum - (n + 1) := by
  have hsum : ∀ edges : List (Fin (n + 1)),
      (edges.map (fun edge => pointsForFactor (parity edge) (factor edge) - 1)).sum + edges.length =
        (edges.map (fun edge => pointsForFactor (parity edge) (factor edge))).sum := by
    intro edges
    induction edges with
    | nil => rfl
    | cons edge edges ih =>
      have htwo := two_points (h edge)
      simp only [List.map_cons, List.sum_cons, List.length_cons]
      omega
  have hall := hsum (List.finRange (n + 1))
  rw [List.length_finRange] at hall
  rw [List.length_flatMap, List.ofFn_eq_map, ← hall, Nat.add_sub_cancel]
  simp only [Polygon.run, List.length_map, List.length_range]

/-! ## Quad edges -/

theorem quadFactors_cases {partitioning : Partitioning} {parity : Parity} {outside : Fin 4 → Nat}
    {inside : Fin 2 → Nat} (h : ∀ edge, culls (outside edge) = false) :
    (quadFactors partitioning parity outside inside = .minimum ∧
        ∀ edge, edgeFactor partitioning (outside edge) = ONE) ∨
      ∃ factors, quadFactors partitioning parity outside inside = .full factors ∧
        factors.outsideParity = (fun edge => edgeParity partitioning (outside edge)) ∧
        factors.outsideContext = (fun edge => factorContext (edgeParity partitioning (outside edge))
          (edgeFactor partitioning (outside edge))) ∧
        factors.outsidePoints = (fun edge => pointsForFactor (edgeParity partitioning (outside edge))
          (edgeFactor partitioning (outside edge))) ∧
        (List.ofFn factors.outsidePoints).sum - 4 ≤ factors.pointCount := by
  unfold quadFactors
  rw [not_culled h]
  simp only [Bool.false_eq_true, if_false]
  split
  · rename_i hminimum
    rw [Bool.and_eq_true, List.all_append, Bool.and_eq_true] at hminimum
    exact Or.inl ⟨rfl, fun edge => all_one hminimum.2.2 edge⟩
  · exact Or.inr ⟨_, rfl, rfl, rfl, rfl, Nat.le_add_right _ _⟩

theorem quadOuterEdge_eq {factors : QuadFactors} {parity : Fin 4 → Parity} {factor : Fin 4 → Nat}
    (hparity : factors.outsideParity = parity)
    (hcontext : factors.outsideContext = fun edge => factorContext (parity edge) (factor edge))
    (hpoints : factors.outsidePoints = fun edge => pointsForFactor (parity edge) (factor edge)) :
    quadOuterEdge factors = fun edge => quadPolygon.run (parity edge) (factor edge) edge := by
  funext edge
  unfold quadOuterEdge Polygon.run
  rw [hparity, hcontext, hpoints]
  fin_cases edge <;> rfl

theorem quad_ring (partitioning : Partitioning) (parity : Parity) (outside : Fin 4 → Nat)
    (inside : Fin 2 → Nat) (h : ∀ edge, culls (outside edge) = false) :
    RingOf (quad partitioning parity outside inside) (fun edge =>
      oriented (quadPolygon.rises edge)
        ((edgeSequence partitioning (outside edge)).map (quadPolygon.embed edge))) := by
  have hbounds : ∀ edge, InBounds (edgeParity partitioning (outside edge))
      (edgeFactor partitioning (outside edge)) :=
    fun edge => outsideFactor_inBounds partitioning (outside edge)
  rcases quadFactors_cases h with ⟨hminimum, hone⟩ | ⟨factors, hfull, hparity, hcontext, hpoints,
    hcount⟩
  · have hodd : ∀ edge, edgeParity partitioning (outside edge) = .odd :=
      fun edge => odd_of_one (hone edge)
    apply quadPolygon.ringOf hbounds 1
    · unfold quad
      rw [hminimum]
      simp only [hone, hodd]
      show quadCorners = _ ++ []
      decide
  · apply quadPolygon.ringOf hbounds 0
    · unfold quad quadPoints
      rw [hfull]
      simp only [Fin.zero_add, quadOuterEdge_eq hparity hcontext hpoints]
      rw [List.append_assoc, List.take_append, List.take_of_length_le]
      rw [runs_length quadPolygon hbounds]
      rw [hpoints] at hcount
      exact hcount

/-! ## Triangle edges -/

theorem triangleFactors_cases {partitioning : Partitioning} {parity : Parity}
    {outside : Fin 3 → Nat} {inside : Nat} (h : ∀ edge, culls (outside edge) = false) :
    (triangleFactors partitioning parity outside inside = .minimum ∧
        ∀ edge, edgeFactor partitioning (outside edge) = ONE) ∨
      ∃ factors, triangleFactors partitioning parity outside inside = .full factors ∧
        factors.outsideParity = (fun edge => edgeParity partitioning (outside edge)) ∧
        factors.outsideContext = (fun edge => factorContext (edgeParity partitioning (outside edge))
          (edgeFactor partitioning (outside edge))) ∧
        factors.outsidePoints = (fun edge => pointsForFactor (edgeParity partitioning (outside edge))
          (edgeFactor partitioning (outside edge))) ∧
        (List.ofFn factors.outsidePoints).sum - 3 ≤ factors.pointCount := by
  unfold triangleFactors
  rw [not_culled h]
  simp only [Bool.false_eq_true, if_false]
  split
  · rename_i hminimum
    rw [Bool.and_eq_true] at hminimum
    exact Or.inl ⟨rfl, fun edge => all_one hminimum.2 edge⟩
  · exact Or.inr ⟨_, rfl, rfl, rfl, rfl, Nat.le_add_right _ _⟩

theorem triangleOuterEdge_eq {factors : TriangleFactors} {parity : Fin 3 → Parity}
    {factor : Fin 3 → Nat} (hparity : factors.outsideParity = parity)
    (hcontext : factors.outsideContext = fun edge => factorContext (parity edge) (factor edge))
    (hpoints : factors.outsidePoints = fun edge => pointsForFactor (parity edge) (factor edge)) :
    triangleOuterEdge factors =
      fun edge => trianglePolygon.run (parity edge) (factor edge) edge := by
  funext edge
  unfold triangleOuterEdge Polygon.run
  rw [hparity, hcontext, hpoints]
  fin_cases edge <;> rfl

theorem triangle_ring (partitioning : Partitioning) (parity : Parity) (outside : Fin 3 → Nat)
    (inside : Nat) (h : ∀ edge, culls (outside edge) = false) :
    RingOf (triangle partitioning parity outside inside) (fun edge =>
      oriented (trianglePolygon.rises edge)
        ((edgeSequence partitioning (outside edge)).map (trianglePolygon.embed edge))) := by
  have hbounds : ∀ edge, InBounds (edgeParity partitioning (outside edge))
      (edgeFactor partitioning (outside edge)) :=
    fun edge => outsideFactor_inBounds partitioning (outside edge)
  rcases triangleFactors_cases h with ⟨hminimum, hone⟩ | ⟨factors, hfull, hparity, hcontext,
    hpoints, hcount⟩
  · have hodd : ∀ edge, edgeParity partitioning (outside edge) = .odd :=
      fun edge => odd_of_one (hone edge)
    apply trianglePolygon.ringOf hbounds 0
    · unfold triangle
      rw [hminimum]
      simp only [hone, hodd]
      show triangleCorners = _ ++ []
      decide
  · apply trianglePolygon.ringOf hbounds 0
    · unfold triangle trianglePoints
      rw [hfull]
      simp only [Fin.zero_add, triangleOuterEdge_eq hparity hcontext hpoints]
      rw [List.append_assoc, List.take_append, List.take_of_length_le]
      rw [runs_length trianglePolygon hbounds]
      rw [hpoints] at hcount
      exact hcount

/-! ## Edges that neighbours share -/

/-- Every factor within bounds runs its points from zero to one in mirrored places, placed without
wrapping and never falling but past six and past thirty, and every patch that is not culled places
its edges so from their own factors. -/
theorem edges_agree :
    (∀ parity factor, InBounds parity factor → EdgePlaced parity factor) ∧
      (∀ partitioning factor, InBounds (edgeParity partitioning factor)
        (edgeFactor partitioning factor)) ∧
      (∀ partitioning parity outside inside, (∀ edge, culls (outside edge) = false) →
        RingOf (quad partitioning parity outside inside) (fun edge =>
          oriented (quadPolygon.rises edge)
            ((edgeSequence partitioning (outside edge)).map (quadPolygon.embed edge)))) ∧
      (∀ partitioning parity outside inside, (∀ edge, culls (outside edge) = false) →
        RingOf (triangle partitioning parity outside inside) (fun edge =>
          oriented (trianglePolygon.rises edge)
            ((edgeSequence partitioning (outside edge)).map (trianglePolygon.embed edge)))) :=
  ⟨fun _ _ h => edgePlaced h, outsideFactor_inBounds, quad_ring, triangle_ring⟩

theorem edges_agree_three :
    EdgePlaced .odd (3 * ONE) ∧
      RingOf (quad .integer .even (fun _ => 0x40400000) (fun _ => 0x40000000)) (fun edge =>
        oriented (quadPolygon.rises edge)
          ((edgeSequence .integer 0x40400000).map (quadPolygon.embed edge))) ∧
      RingOf (triangle .fractionalOdd .even (fun _ => 0x40200000) 0x40000000) (fun edge =>
        oriented (trianglePolygon.rises edge)
          ((edgeSequence .fractionalOdd 0x40200000).map (trianglePolygon.embed edge))) :=
  ⟨edges_agree.1 .odd (3 * ONE) (by decide),
    edges_agree.2.2.1 .integer .even (fun _ => 0x40400000) (fun _ => 0x40000000) (by decide),
    edges_agree.2.2.2 .fractionalOdd .even (fun _ => 0x40200000) 0x40000000 (by decide)⟩

/-- Just past six the point before the middle of an edge lies past it; and an inner ring that an
inside factor of one leaves no room has points on the outer edges beside theirs. -/
theorem edge_falls_past_six :
    (¬∀ parity factor, InBounds parity factor → ∀ k, k + 1 < pointsForFactor parity factor →
      edgePoint parity factor k ≤ edgePoint parity factor (k + 1)) ∧
      edgeSequence .fractionalEven 0x40c00020 =
        [0, 0x2aab, 0x5556, 0x8001, 0x8000, 0x7fff, 0xaaaa, 0xd555, 0x10000] ∧
      (0, 0xcccd) ∈ quad .fractionalOdd .odd (fun _ => 0x40400000)
        (fun axis => if axis = 0 then 0x3f800000 else 0x40a00000) ∧
      0xcccd ∉ edgeSequence .fractionalOdd 0x40400000 := by
  apply And.intro
  · intro hrises
    have hfall := hrises .even (6 * ONE + 1) (by decide) 3 (by decide +kernel)
    revert hfall
    decide +kernel
  · decide +kernel

end Orbistoun.Gpu.Tessellation
