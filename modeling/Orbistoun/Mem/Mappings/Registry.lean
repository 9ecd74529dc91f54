import Orbistoun.Mem.Mappings.Runs

/-! # The registry over whole runs

What the registry answers is what the operations so far say: a live reservation is
tiled by its stretches, each byte has the readability last set over it, and the
readable runs are the maximal ones. A change of protection over no bytes, strictly
inside a live reservation, is the one step after which that is no longer so.
-/

namespace Orbistoun.Mem.Mappings

open Std (TreeMap)
open Orbistoun.Lib
open Orbistoun.Lib.IntervalMap
open Orbistoun.Lib.Spans (Ordered Proper Covers)
open Orbistoun.Lib.U64 (saturatingAdd bound)

/-! ## What the operations say -/

def Op.sets (x : Nat) : Op → Option Bool
  | .reserved base len readable =>
      if base ≤ x ∧ x < saturatingAdd base len then some readable else none
  | .protected_ base len readable =>
      if base ≤ x ∧ x < saturatingAdd base len then some readable else none
  | .released _ => none

def lastSet (ops : List Op) (x : Nat) : Option Bool :=
  ops.foldl (fun last op => (op.sets x).or last) none

theorem lastSet_snoc (ops : List Op) (op : Op) (x : Nat) :
    lastSet (ops ++ [op]) x = (op.sets x).or (lastSet ops x) := by
  simp [lastSet, List.foldl_append]

def Readable (r : Registry) (ops : List Op) (x : Nat) : Prop :=
  lastSet ops x = some true ∧ ∃ (base len : Nat) (t : Stretches),
    r.reservations[base]? = some (len, t) ∧ base ≤ x ∧ x < saturatingAdd base len

/-- A registry that answers what the operations so far say. -/
structure Faithful (r : Registry) (ops : List Op) : Prop where
  tiled : ∀ {base len : Nat} {t : Stretches}, r.reservations[base]? = some (len, t) →
    Sound t ∧ ∀ x, (∃ w, Holds t x w) ↔ base ≤ x ∧ x < saturatingAdd base len
  last : ∀ {base len : Nat} {t : Stretches}, r.reservations[base]? = some (len, t) →
    ∀ x w, Holds t x w → lastSet ops x = some w
  ordered : Ordered Prod.fst runEnd r.readableRuns
  proper : Proper Prod.fst runEnd r.readableRuns
  exact : ∀ x, Covers Prod.fst runEnd r.readableRuns x ↔ Readable r ops x
  maximal : ∀ run ∈ r.readableRuns, ∃ (base len : Nat) (t : Stretches),
    r.reservations[base]? = some (len, t) ∧ base ≤ run.1 ∧ runEnd run ≤ saturatingAdd base len ∧
      (run.1 = base ∨ ¬ Readable r ops (run.1 - 1)) ∧
      (runEnd run = saturatingAdd base len ∨ ¬ Readable r ops (runEnd run))

/-! ## Which runs there are -/

/-- What `AddressSpace::validate` makes sure of before it reserves: the range has bytes
and shares none with a live reservation. -/
def Admitted (r : Registry) : Op → Prop
  | .reserved base len _ => base < saturatingAdd base len ∧
      ∀ (start held : Nat) (t : Stretches), r.reservations[start]? = some (held, t) →
        saturatingAdd start held ≤ base ∨ saturatingAdd base len ≤ start
  | .protected_ .. => True
  | .released _ => True

/-- Not a change of protection over no bytes strictly inside a live reservation. -/
def Spared (r : Registry) : Op → Prop
  | .protected_ base len _ => len = 0 → ∀ (start held : Nat) (t : Stretches),
      r.reservations[start]? = some (held, t) → ¬ (start < base ∧ base < saturatingAdd start held)
  | .reserved .. => True
  | .released _ => True

/-- Live reservations have bytes and share none. -/
structure Separate (r : Registry) : Prop where
  proper : ∀ {base len : Nat} {t : Stretches}, r.reservations[base]? = some (len, t) →
    base < saturatingAdd base len
  apart : ∀ {base len base' len' : Nat} {t t' : Stretches},
    r.reservations[base]? = some (len, t) → r.reservations[base']? = some (len', t') →
    base < base' → saturatingAdd base len ≤ base'

/-- What every run of spared steps keeps: the part of `Faithful` the runs follow from. -/
structure Kept (r : Registry) (ops : List Op) : Prop where
  separate : Separate r
  tiled : ∀ {base len : Nat} {t : Stretches}, r.reservations[base]? = some (len, t) →
    Sound t ∧ ∀ x, (∃ w, Holds t x w) ↔ base ≤ x ∧ x < saturatingAdd base len
  last : ∀ {base len : Nat} {t : Stretches}, r.reservations[base]? = some (len, t) →
    ∀ x w, Holds t x w → lastSet ops x = some w

/-! ## The readable runs -/

section KeptRuns

variable {r : Registry} {ops : List Op}

theorem mem_reservations {base len : Nat} {t : Stretches} :
    (base, (len, t)) ∈ r.reservations.toList ↔ r.reservations[base]? = some (len, t) :=
  TreeMap.mem_toList_iff_getElem?_eq_some

theorem mem_readableRuns {run : Nat × Nat} :
    run ∈ r.readableRuns ↔ ∃ (base len : Nat) (t : Stretches),
      r.reservations[base]? = some (len, t) ∧ run ∈ t.readableRuns := by
  rw [Registry.readableRuns, List.mem_flatMap]
  constructor
  · rintro ⟨⟨base, len, t⟩, hm, hrun⟩
    exact ⟨base, len, t, mem_reservations.mp hm, hrun⟩
  · rintro ⟨base, len, t, hs, hrun⟩
    exact ⟨(base, (len, t)), mem_reservations.mpr hs, hrun⟩

theorem Kept.run_within (h : Kept r ops) {base len : Nat} {t : Stretches}
    (hs : r.reservations[base]? = some (len, t)) {run : Nat × Nat} (hrun : run ∈ t.readableRuns) :
    base ≤ run.1 ∧ run.1 < runEnd run ∧ runEnd run ≤ saturatingAdd base len := by
  obtain ⟨hsound, htiles⟩ := h.tiled hs
  obtain ⟨-, hproper, hexact⟩ := readableRuns_spec hsound
  have hlen := hproper run hrun
  have hfirst := (hexact run.1).mp ⟨run, hrun, Nat.le_refl _, hlen⟩
  have hlast := (hexact (runEnd run - 1)).mp ⟨run, hrun, by omega, by omega⟩
  have hf := (htiles _).mp ⟨true, hfirst⟩
  have hl := (htiles _).mp ⟨true, hlast⟩
  omega

theorem Kept.readable_iff (h : Kept r ops) {base len : Nat} {t : Stretches}
    (hs : r.reservations[base]? = some (len, t)) {x : Nat} (hlo : base ≤ x)
    (hhi : x < saturatingAdd base len) : Readable r ops x ↔ Holds t x true := by
  constructor
  · rintro ⟨hlast, -⟩
    obtain ⟨w, hw⟩ := ((h.tiled hs).2 x).mpr ⟨hlo, hhi⟩
    have hset := h.last hs x w hw
    rw [hlast] at hset
    cases hset
    exact hw
  · intro hw
    exact ⟨h.last hs x true hw, base, len, t, hs, hlo, hhi⟩

theorem Kept.ordered_runs (h : Kept r ops) : Ordered Prod.fst runEnd r.readableRuns := by
  rw [Ordered, Registry.readableRuns, List.pairwise_flatMap]
  refine ⟨?_, ?_⟩
  · rintro ⟨base, len, t⟩ hm
    have hapart := (readableRuns_spec (h.tiled (mem_reservations.mp hm)).1).1
    exact hapart.imp (fun hab => Nat.le_of_lt hab)
  · refine TreeMap.ordered_keys_toList.imp_of_mem (fun {a b} ha hb hlt => ?_)
    obtain ⟨base, len, t⟩ := a
    obtain ⟨base', len', t'⟩ := b
    intro run hrun run' hrun'
    have hs := mem_reservations.mp ha
    have hs' := mem_reservations.mp hb
    have hin := h.run_within hs hrun
    have hin' := h.run_within hs' hrun'
    have hsep := h.separate.apart hs hs' (Nat.compare_eq_lt.mp hlt)
    omega

theorem Kept.exact_runs (h : Kept r ops) (x : Nat) :
    Covers Prod.fst runEnd r.readableRuns x ↔ Readable r ops x := by
  constructor
  · rintro ⟨run, hrun, hlo, hhi⟩
    obtain ⟨base, len, t, hs, hrun⟩ := mem_readableRuns.mp hrun
    have hin := h.run_within hs hrun
    have hheld := ((readableRuns_spec (h.tiled hs).1).2.2 x).mp ⟨run, hrun, hlo, hhi⟩
    exact (h.readable_iff hs (by omega) (by omega)).mpr hheld
  · intro hread
    obtain ⟨base, len, t, hs, hlo, hhi⟩ := hread.2
    have hheld := (h.readable_iff hs hlo hhi).mp hread
    obtain ⟨run, hrun, hx⟩ := ((readableRuns_spec (h.tiled hs).1).2.2 x).mpr hheld
    exact ⟨run, mem_readableRuns.mpr ⟨base, len, t, hs, hrun⟩, hx⟩

theorem Kept.faithful (h : Kept r ops) : Faithful r ops where
  tiled := h.tiled
  last := h.last
  ordered := h.ordered_runs
  proper := by
    intro run hrun
    obtain ⟨base, len, t, hs, hrun⟩ := mem_readableRuns.mp hrun
    exact (h.run_within hs hrun).2.1
  exact := h.exact_runs
  maximal := by
    intro run hrun
    obtain ⟨base, len, t, hs, hrun⟩ := mem_readableRuns.mp hrun
    have hin := h.run_within hs hrun
    obtain ⟨hbefore, hafter⟩ := readableRuns_maximal (h.tiled hs).1 hrun
    refine ⟨base, len, t, hs, hin.1, hin.2.2, ?_, ?_⟩
    · by_cases heq : run.1 = base
      · exact .inl heq
      · right
        rw [h.readable_iff hs (by omega) (by omega)]
        exact hbefore _ (by omega)
    · by_cases heq : runEnd run = saturatingAdd base len
      · exact .inl heq
      · right
        rw [h.readable_iff hs (by omega) (by omega)]
        exact hafter

end KeptRuns

/-! ## Steps -/

theorem saturatingAdd_lt_bound (x y : Nat) : saturatingAdd x y < bound := by
  unfold saturatingAdd bound
  omega

theorem le_saturatingAdd {x : Nat} (h : x < bound) (y : Nat) : x ≤ saturatingAdd x y := by
  unfold saturatingAdd
  omega

theorem lt_saturatingAdd {x y : Nat} (h : x + 1 < bound) (hy : y ≠ 0) : x < saturatingAdd x y := by
  unfold saturatingAdd
  omega

theorem getElem?_protected (r : Registry) (base len : Nat) (readable : Bool) (k : Nat) :
    (protected_ r base len readable).reservations[k]? = r.reservations[k]?.map (fun e =>
      (e.1, protectStretches base (saturatingAdd base len) readable k e.1 e.2)) := by
  simp [protected_]

theorem getElem?_reserved (r : Registry) (base len : Nat) (readable : Bool) (k : Nat) :
    (reserved r base len readable).reservations[k]? =
      if base = k then some (len, Stretches.set ∅ base (saturatingAdd base len) readable)
      else r.reservations[k]? := by
  simp only [reserved]
  rw [TreeMap.getElem?_insert]
  simp

theorem getElem?_released (r : Registry) (base k : Nat) :
    (released r base).reservations[k]? = if base = k then none else r.reservations[k]? := by
  unfold released
  split
  · rw [TreeMap.getElem?_erase]
    simp
  · next hnone =>
    split
    · next heq =>
      subst heq
      exact TreeMap.getElem?_eq_none (by simpa using hnone)
    · rfl

/-- The reservations an operation keeps stay apart, whatever becomes of their pages. -/
theorem step_separate {r : Registry} (op : Op) (h : Separate r) (hop : Admitted r op) :
    Separate (step r op) := by
  cases op with
  | reserved base len readable =>
      obtain ⟨hlt, hfree⟩ := hop
      refine ⟨fun hs => ?_, fun {a la b lb ta tb} hs hs' hab => ?_⟩
      · rw [step, getElem?_reserved] at hs
        split at hs
        · next heq =>
          subst heq
          cases hs
          exact hlt
        · exact h.proper hs
      · rw [step, getElem?_reserved] at hs hs'
        split at hs
        · next heq =>
          subst heq
          cases hs
          rw [if_neg (by omega)] at hs'
          have := h.proper hs'
          rcases hfree b lb tb hs' with hle | hle <;> omega
        · split at hs'
          · next heq =>
            subst heq
            cases hs'
            rcases hfree a la ta hs with hle | hle <;> omega
          · exact h.apart hs hs' hab
  | protected_ base len readable =>
      refine ⟨fun {b l t} hs => ?_, fun {a la b lb ta tb} hs hs' hab => ?_⟩
      · rw [step, getElem?_protected, Option.map_eq_some_iff] at hs
        obtain ⟨⟨l', t'⟩, hs, heq⟩ := hs
        cases heq
        exact h.proper hs
      · rw [step, getElem?_protected, Option.map_eq_some_iff] at hs hs'
        obtain ⟨⟨la', ta'⟩, hs, heq⟩ := hs
        obtain ⟨⟨lb', tb'⟩, hs', heq'⟩ := hs'
        cases heq
        cases heq'
        exact h.apart hs hs' hab
  | released base =>
      refine ⟨fun hs => ?_, fun hs hs' hab => ?_⟩
      · rw [step, getElem?_released] at hs
        split at hs
        · cases hs
        · exact h.proper hs
      · rw [step, getElem?_released] at hs hs'
        split at hs
        · cases hs
        · split at hs'
          · cases hs'
          · exact h.apart hs hs' hab

theorem sound_empty : Sound (∅ : Stretches) := ⟨by simp, by simp⟩

theorem not_holds_empty (x : Nat) (w : Bool) : ¬ Holds (∅ : Stretches) x w := by
  rintro ⟨lo, hi, hs, -⟩
  simp at hs

/-- The pages of a reservation after a change of protection that is spared: the bytes
of the range take the new readability. -/
theorem protectStretches_spec {r : Registry} {base len start held : Nat} {readable : Bool}
    {t : Stretches} (hsep : Separate r) (hspared : Spared r (.protected_ base len readable))
    (hs : r.reservations[start]? = some (held, t)) (hsound : Sound t) :
    Sound (protectStretches base (saturatingAdd base len) readable start held t) ∧
      ∀ x w, Holds (protectStretches base (saturatingAdd base len) readable start held t) x w ↔
        if (start ≤ x ∧ x < saturatingAdd start held) ∧ base ≤ x ∧ x < saturatingAdd base len
        then w = readable else Holds t x w := by
  have hlive := hsep.proper hs
  have hword := saturatingAdd_lt_bound start held
  unfold protectStretches meets
  by_cases hmeets : start < saturatingAdd base len ∧ base < saturatingAdd start held
  · rw [if_pos (by simpa using hmeets)]
    have hlt : max base start < min (saturatingAdd base len) (saturatingAdd start held) := by
      by_cases hlen : len = 0
      · have := hspared hlen start held t hs
        have hle := le_saturatingAdd (x := base) (by omega) len
        have hzero : saturatingAdd base len ≤ base := by
          rw [hlen]
          unfold saturatingAdd
          omega
        omega
      · have := lt_saturatingAdd (x := base) (by omega) hlen
        omega
    obtain ⟨hset, hbytes⟩ := set_spec hsound hlt readable
    refine ⟨hset, fun x w => ?_⟩
    rw [hbytes]
    by_cases hx : max base start ≤ x ∧
        x < min (saturatingAdd base len) (saturatingAdd start held)
    · rw [if_pos hx, if_pos (by omega)]
    · rw [if_neg hx, if_neg (by omega)]
  · rw [if_neg (by simpa using hmeets)]
    refine ⟨hsound, fun x w => ?_⟩
    rw [if_neg (by omega)]

theorem reserved_kept {r : Registry} {ops : List Op} {base len : Nat} {readable : Bool}
    (h : Kept r ops) (hop : Admitted r (.reserved base len readable)) :
    Kept (reserved r base len readable) (ops ++ [Op.reserved base len readable]) := by
  obtain ⟨hset, hbytes⟩ := set_spec sound_empty hop.1 readable
  refine ⟨step_separate _ h.separate hop, fun {b l t} hs => ?_, fun {b l t} hs x w hw => ?_⟩
  · rw [getElem?_reserved] at hs
    split at hs
    · next heq =>
      subst heq
      cases hs
      refine ⟨hset, fun x => ?_⟩
      simp only [hbytes, not_holds_empty]
      split
      · next hx => simp [hx]
      · next hx => simp [hx]
    · exact h.tiled hs
  · rw [getElem?_reserved] at hs
    rw [lastSet_snoc]
    split at hs
    · next heq =>
      subst heq
      cases hs
      rw [hbytes] at hw
      split at hw
      · next hx => simp [Op.sets, hx, hw]
      · exact absurd hw (not_holds_empty x w)
    · -- The new reservation shares no byte with this one.
      have hx := ((h.tiled hs).2 x).mp ⟨w, hw⟩
      have hsets : Op.sets x (.reserved base len readable) = none := by
        have hfree := hop.2 b l t hs
        simp only [Op.sets]
        rw [if_neg (by omega)]
      rw [hsets, Option.none_or]
      exact h.last hs x w hw

theorem protected_kept {r : Registry} {ops : List Op} {base len : Nat} {readable : Bool}
    (h : Kept r ops) (hspared : Spared r (.protected_ base len readable)) :
    Kept (protected_ r base len readable) (ops ++ [Op.protected_ base len readable]) := by
  refine ⟨step_separate (.protected_ base len readable) h.separate trivial,
    fun {b l t} hs => ?_, fun {b l t} hs x w hw => ?_⟩
  · rw [getElem?_protected, Option.map_eq_some_iff] at hs
    obtain ⟨⟨l', t'⟩, hs, heq⟩ := hs
    cases heq
    obtain ⟨hsound, htiles⟩ := h.tiled hs
    obtain ⟨hset, hbytes⟩ := protectStretches_spec h.separate hspared hs hsound
    refine ⟨hset, fun x => ?_⟩
    simp only [hbytes]
    split
    · next hx => simp [hx.1]
    · exact htiles x
  · rw [getElem?_protected, Option.map_eq_some_iff] at hs
    obtain ⟨⟨l', t'⟩, hs, heq⟩ := hs
    cases heq
    obtain ⟨hsound, htiles⟩ := h.tiled hs
    have hbytes := (protectStretches_spec h.separate hspared hs hsound).2 x w
    rw [lastSet_snoc]
    by_cases hx : base ≤ x ∧ x < saturatingAdd base len
    · have hsets : Op.sets x (.protected_ base len readable) = some readable := by
        simp only [Op.sets, if_pos hx]
      rw [hsets, Option.some_or]
      have hin := (htiles x).mp
      by_cases hext : b ≤ x ∧ x < saturatingAdd b l'
      · rw [hbytes, if_pos ⟨hext, hx⟩] at hw
        rw [hw]
      · rw [hbytes, if_neg (fun hc => hext hc.1)] at hw
        exact absurd (hin ⟨w, hw⟩) hext
    · have hsets : Op.sets x (.protected_ base len readable) = none := by
        simp only [Op.sets, if_neg hx]
      rw [hbytes, if_neg (fun hc => hx hc.2)] at hw
      rw [hsets, Option.none_or]
      exact h.last hs x w hw

theorem released_kept {r : Registry} {ops : List Op} {base : Nat} (h : Kept r ops) :
    Kept (released r base) (ops ++ [Op.released base]) := by
  refine ⟨step_separate (.released base) h.separate trivial, fun hs => ?_,
    fun hs x w hw => ?_⟩
  · rw [getElem?_released] at hs
    split at hs
    · cases hs
    · exact h.tiled hs
  · rw [getElem?_released] at hs
    rw [lastSet_snoc, Op.sets, Option.none_or]
    split at hs
    · cases hs
    · exact h.last hs x w hw

theorem step_kept {r : Registry} {ops : List Op} {op : Op} (h : Kept r ops) (hop : Admitted r op)
    (hspared : Spared r op) : Kept (step r op) (ops ++ [op]) := by
  cases op with
  | reserved base len readable => exact reserved_kept h hop
  | protected_ base len readable => exact protected_kept h hspared
  | released base => exact released_kept h

/-! ## The generation -/

theorem step_generation (r : Registry) (op : Op) (h : (step r op).readableRuns ≠ r.readableRuns) :
    r.generation < (step r op).generation := by
  cases op with
  | reserved base len readable => exact Nat.lt_succ_self _
  | protected_ base len readable =>
      simp only [step, protected_] at h ⊢
      split
      · exact Nat.lt_succ_self _
      · next hsame =>
        exfalso
        apply h
        simp only [Registry.readableRuns, TreeMap.toList_map, List.flatMap_map]
        refine List.flatMap_congr (fun e he => ?_)
        by_contra hne
        exact hsame (List.any_eq_true.mpr ⟨e, he, by simpa using hne⟩)
  | released base =>
      simp only [step, released] at h ⊢
      split
      · exact Nat.lt_succ_self _
      · next hnone => simp [hnone] at h

/-! ## Runs -/

theorem separate_empty : Separate Registry.empty :=
  ⟨by simp [Registry.empty], by simp [Registry.empty]⟩

theorem kept_empty : Kept Registry.empty [] :=
  ⟨separate_empty, by simp [Registry.empty], by simp [Registry.empty]⟩

theorem registry_log (r : Registry) (ops : List Op) : registry.log r ops = ops := by
  induction ops generalizing r with
  | nil => rfl
  | cons op ops ih =>
      rw [Machine.log_cons, ih]
      rfl

theorem run_kept {ops : List Op} (hadm : registry.Meets Admitted Registry.empty ops)
    (hsp : registry.Meets Spared Registry.empty ops) :
    Kept (registry.after Registry.empty ops) ops := by
  have hboth : registry.Meets (fun r op => Admitted r op ∧ Spared r op) Registry.empty ops := by
    rw [Machine.meets_iff_prefix] at hadm hsp ⊢
    exact fun pre op hpre => ⟨hadm pre op hpre, hsp pre op hpre⟩
  have h := Machine.run_rule (m := registry) (R := Kept)
    (fun r w op hk hop => step_kept hk hop.1 hop.2) kept_empty hboth
  rwa [registry_log, List.nil_append] at h

/-- A change of protection over no bytes, strictly inside a live reservation, leaves a
byte of it in no stretch. -/
theorem protected_empty_unfaithful {r : Registry} {base start held : Nat} {readable : Bool}
    {t : Stretches} {ops : List Op} (hs : r.reservations[start]? = some (held, t))
    (hin : start < base ∧ base < saturatingAdd start held) :
    ¬ Faithful (protected_ r base 0 readable) ops := by
  intro h
  have hstop : saturatingAdd base 0 = base := by
    have := saturatingAdd_lt_bound start held
    unfold saturatingAdd
    omega
  have hnew : (protected_ r base 0 readable).reservations[start]? =
      some (held, t.set base base readable) := by
    rw [getElem?_protected, hs, hstop]
    have hmeets : meets base base start held = true := by
      simpa [meets] using hin
    simp only [Option.map_some, protectStretches, hmeets, if_true]
    rw [Nat.max_eq_left (Nat.le_of_lt hin.1), Nat.min_eq_left (Nat.le_of_lt hin.2)]
  obtain ⟨w, hw⟩ := ((h.tiled hnew).2 base).mpr ⟨Nat.le_of_lt hin.1, hin.2⟩
  exact set_empty_loses t base readable w hw

/-- Over a run: the registry answers what the operations say after each of them, and
the generation increases with every change of the readable runs. -/
def Tracks (ops : List Op) : Prop :=
  (∀ pre, pre <+: ops → Faithful (registry.after Registry.empty pre) pre) ∧
    ∀ pre op, pre ++ [op] <+: ops →
      (registry.after Registry.empty (pre ++ [op])).readableRuns ≠
        (registry.after Registry.empty pre).readableRuns →
      (registry.after Registry.empty pre).generation <
        (registry.after Registry.empty (pre ++ [op])).generation

theorem tracks_of_spared {ops : List Op} (hadm : registry.Meets Admitted Registry.empty ops)
    (hsp : registry.Meets Spared Registry.empty ops) : Tracks ops := by
  refine ⟨fun pre hpre => ?_, fun pre op hpre hne => ?_⟩
  · exact (run_kept (hadm.of_prefix hpre) (hsp.of_prefix hpre)).faithful
  · rw [Machine.after_append] at hne ⊢
    exact step_generation _ op hne

/-- The registry tracks a run of admitted operations exactly when no change of
protection over no bytes lands strictly inside a live reservation. -/
theorem tracks_iff_spared (ops : List Op) (hadm : registry.Meets Admitted Registry.empty ops) :
    Tracks ops ↔ registry.Meets Spared Registry.empty ops := by
  constructor
  · rintro ⟨hfaithful, -⟩
    rw [Machine.meets_iff_prefix]
    intro pre op hpre
    have hstep := hfaithful (pre ++ [op]) hpre
    rw [Machine.after_append] at hstep
    cases op with
    | reserved base len readable => trivial
    | released base => trivial
    | protected_ base len readable =>
        intro hlen start held t hs hin
        subst hlen
        exact protected_empty_unfaithful hs hin hstep
  · exact tracks_of_spared hadm

/-- A reservation of two halves, the second made unreadable. -/
theorem tracks_two_halves :
    Tracks [.reserved 0x10000 0x8000 true, .protected_ 0x14000 0x4000 false] := by
  refine (tracks_iff_spared _ ?_).mpr ?_
  · refine ⟨⟨by decide, ?_⟩, trivial, trivial⟩
    intro start held t hs
    simp [Registry.empty] at hs
  · exact ⟨trivial, fun hlen => absurd hlen (by decide), trivial⟩

/-- Protecting no bytes in the middle of a readable reservation loses its second half. -/
theorem protecting_nothing_loses_half :
    (registry.after Registry.empty
      [.reserved 0x10000 0x8000 true, .protected_ 0x14000 0 true]).readableRuns =
        [(0x10000, 0x4000)] ∧
    ¬ (∀ ops, registry.Meets Admitted Registry.empty ops → Tracks ops) := by
  refine ⟨by decide, fun h => ?_⟩
  have hadm : registry.Meets Admitted Registry.empty
      [.reserved 0x10000 0x8000 true, .protected_ 0x14000 0 true] := by
    refine ⟨⟨by decide, ?_⟩, trivial, trivial⟩
    intro start held t hs
    simp [Registry.empty] at hs
  have hlive : (reserved Registry.empty 0x10000 0x8000 true).reservations[0x10000]? =
      some (0x8000, Stretches.set ∅ 0x10000 (saturatingAdd 0x10000 0x8000) true) := by
    rw [getElem?_reserved, if_pos rfl]
  exact protected_empty_unfaithful hlive (by decide) ((h _ hadm).1 _ List.prefix_rfl)

end Orbistoun.Mem.Mappings
