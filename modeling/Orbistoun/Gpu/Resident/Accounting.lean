import Orbistoun.Gpu.Resident.Entries
import Orbistoun.Lib.Machine
import Orbistoun.Lib.MapTotal

/-! # What the registry counts and reports

The bytes it counts are those of its entries while those are a machine word, an entry let go is
reported once, and what is let go to make room is neither deferred nor of the dispatch being
prepared.
-/

namespace Orbistoun.Gpu

open Orbistoun.Lib
open Orbistoun.Lib.U64 (bound wrappingAdd wrappingSub wrappingAdd_eq wrappingSub_eq)

namespace Registry

/-- The keys let go since the device was last told. -/
def takeDropped (r : Registry) : List Nat × Registry := (r.dropped, { r with dropped := [] })

/-- The bytes counted are the entries', which are a word, and no entry was used by a dispatch
still to come. -/
structure Sound (r : Registry) : Prop where
  bytes : r.bytes = MapTotal.total Entry.bytes r.entries
  fits : MapTotal.total Entry.bytes r.entries < bound
  used : ∀ (k : Nat) (e : Entry), r.entries[k]? = some e → e.used ≤ r.dispatch

/-- The keys of `r` that `r'` does not hold are reported, each once. -/
def Reports (r r' : Registry) : Prop :=
  ∃ ks, r'.dropped = r.dropped ++ ks ∧ ks.Nodup ∧
    ∀ k : Nat, k ∈ ks ↔ (r.entries[k]?).isSome ∧ r'.entries[k]? = none

/-- `r'` is `r` with some entries let go and others gone on to another state. -/
structure Kept (r r' : Registry) : Prop where
  sound : Sound r → Sound r'
  back : ∀ k : Nat, (r'.entries[k]?).isSome → (r.entries[k]?).isSome
  reports : Reports r r'

theorem Reports.trans {r₁ r₂ r₃ : Registry} (h : Reports r₁ r₂) (h' : Reports r₂ r₃)
    (hgone : ∀ k : Nat, r₂.entries[k]? = none → (r₁.entries[k]?).isSome → r₃.entries[k]? = none)
    (hback : ∀ k : Nat, (r₂.entries[k]?).isSome → r₃.entries[k]? = none → (r₁.entries[k]?).isSome) :
    Reports r₁ r₃ := by
  obtain ⟨ks, hks, hnodup, hmem⟩ := h
  obtain ⟨ks', hks', hnodup', hmem'⟩ := h'
  refine ⟨ks ++ ks', by rw [hks', hks, List.append_assoc], ?_, fun k => ?_⟩
  · apply List.nodup_append'.mpr
    refine ⟨hnodup, hnodup', fun k hk hk' => ?_⟩
    have hnone := ((hmem k).mp hk).2
    have hsome := ((hmem' k).mp hk').1
    rw [hnone] at hsome
    cases hsome
  · rw [List.mem_append, hmem, hmem']
    constructor
    · rintro (⟨hsome, hnone⟩ | ⟨hsome, hnone⟩)
      · exact ⟨hsome, hgone k hnone hsome⟩
      · exact ⟨hback k hsome hnone, hnone⟩
    · rintro ⟨hsome, hnone⟩
      cases hmid : r₂.entries[k]? with
      | none => exact .inl ⟨hsome, rfl⟩
      | some e => exact .inr ⟨rfl, hnone⟩

theorem kept_of_same {r r' : Registry} (hentries : r'.entries = r.entries)
    (hbytes : r'.bytes = r.bytes) (hdropped : r'.dropped = r.dropped)
    (hdispatch : r.dispatch ≤ r'.dispatch) : Kept r r' := by
  refine ⟨fun hs => ⟨?_, ?_, fun k e he => ?_⟩, fun k hk => ?_,
    ⟨[], ?_, List.nodup_nil, fun k => ?_⟩⟩
  · rw [hbytes, hs.bytes, hentries]
  · rw [hentries]
    exact hs.fits
  · rw [hentries] at he
    have := hs.used k e he
    omega
  · rwa [hentries] at hk
  · rw [hdropped, List.append_nil]
  · rw [hentries]
    refine iff_of_false (by simp) (fun h => ?_)
    rw [h.2] at h
    cases h.1

theorem kept_refl (r : Registry) : Kept r r := kept_of_same rfl rfl rfl (Nat.le_refl _)

theorem Kept.trans {r₁ r₂ r₃ : Registry} (h : Kept r₁ r₂) (h' : Kept r₂ r₃) : Kept r₁ r₃ := by
  refine ⟨fun hs => h'.sound (h.sound hs), fun k hk => h.back k (h'.back k hk), ?_⟩
  apply h.reports.trans h'.reports
  · intro k hnone _
    cases hlast : r₃.entries[k]? with
    | none => rfl
    | some e =>
        have hsome := h'.back k (by rw [hlast]; rfl)
        rw [hnone] at hsome
        cases hsome
  · exact fun k hsome _ => h.back k hsome

theorem forget_kept (r : Registry) (key : Nat) : Kept r (r.forget key) := by
  rcases forget_cases r key with ⟨hsame, -⟩ | ⟨e, he, hd, hgone⟩
  · rw [hsame]
    exact kept_refl r
  · have hget : ∀ k : Nat, (r.forget key).entries[k]? =
        if key = k then none else r.entries[k]? := by
      intro k
      rw [hgone]
      simp only [Std.TreeMap.getElem?_erase, Nat.compare_eq_eq]
    have hother : ∀ {k : Nat} {e' : Entry}, (r.forget key).entries[k]? = some e' →
        r.entries[k]? = some e' := by
      intro k e' he'
      rw [hget] at he'
      split at he'
      · cases he'
      · exact he'
    refine ⟨fun hs => ⟨?_, ?_, fun k e' he' => ?_⟩, fun k hk => ?_, ⟨[key], ?_, ?_, fun k => ?_⟩⟩
    · have htotal := MapTotal.total_erase Entry.bytes he
      have hbytes := hs.bytes
      have hfits := hs.fits
      rw [hgone]
      dsimp only
      rw [wrappingSub_eq (by omega) (by omega)]
      omega
    · have htotal := MapTotal.total_erase Entry.bytes he
      have hfits := hs.fits
      rw [hgone]
      dsimp only
      omega
    · have hused := hs.used k e' (hother he')
      rw [hgone]
      exact hused
    · obtain ⟨e', he'⟩ := Option.isSome_iff_exists.mp hk
      rw [hother he']
      rfl
    · rw [hgone]
    · exact List.nodup_singleton key
    · rw [List.mem_singleton, hget]
      constructor
      · intro hk
        subst hk
        rw [if_pos rfl, he]
        exact ⟨rfl, rfl⟩
      · intro h
        by_contra hne
        rw [if_neg (fun heq => hne heq.symm)] at h
        rw [h.2] at h
        cases h.1

theorem setEntry_kept {r : Registry} {key : Nat} {e e' : Entry} (he : r.entries[key]? = some e)
    (hbytes : e'.bytes = e.bytes) (hused : e'.used = e.used ∨ e'.used = r.dispatch) :
    Kept r (r.setEntry key e') := by
  have hsome : ∀ k : Nat, ((r.setEntry key e').entries[k]?).isSome ↔ (r.entries[k]?).isSome := by
    intro k
    rw [getElem?_setEntry]
    split
    · next hk =>
      rw [hk, he]
      exact iff_of_true rfl rfl
    · rfl
  have htotal := MapTotal.total_replace Entry.bytes he e'
  refine ⟨fun hs => ⟨?_, ?_, fun k d hd => ?_⟩, fun k hk => (hsome k).mp hk,
    ⟨[], (List.append_nil _).symm, List.nodup_nil, fun k => ?_⟩⟩
  · have hold := hs.bytes
    show r.bytes = MapTotal.total Entry.bytes (r.entries.insert key e')
    omega
  · have hfits := hs.fits
    show MapTotal.total Entry.bytes (r.entries.insert key e') < bound
    omega
  · rw [getElem?_setEntry] at hd
    split at hd
    · cases hd
      have hmost := hs.used key e he
      show e'.used ≤ r.dispatch
      omega
    · exact hs.used k d hd
  · refine iff_of_false (List.not_mem_nil) (fun h => ?_)
    have hstill := (hsome k).mpr h.1
    rw [h.2] at hstill
    cases hstill

theorem foldl_kept {ι : Type} (f : Registry → ι → Registry) (hf : ∀ r i, Kept r (f r i))
    (r : Registry) (l : List ι) : Kept r (l.foldl f r) := by
  induction l generalizing r with
  | nil => exact kept_refl r
  | cons i l ih => exact (hf r i).trans (ih _)

theorem foldl_kept_watched {W ι : Type} (f : Registry × W → ι → Registry × W)
    (hf : ∀ rw i, Kept rw.1 (f rw i).1) (rw : Registry × W) (l : List ι) :
    Kept rw.1 (l.foldl f rw).1 := by
  induction l generalizing rw with
  | nil => exact kept_refl rw.1
  | cons i l ih => exact (hf rw i).trans (ih _)

/-! ## Making room -/

section Room

variable {walk : List (Nat × Entry) → List (Nat × Entry)}

def Stays (r : Registry) (e : Entry) : Prop := e.used = r.dispatch ∨ e.state = .deferred

theorem letOldestGoIn_kept (r : Registry) (rounds : Nat) :
    Kept r (r.letOldestGoIn walk rounds) := by
  induction rounds generalizing r with
  | zero => exact kept_refl r
  | succ rounds ih =>
      rw [letOldestGoIn]
      split
      · split
        · exact kept_refl r
        · next key _ => exact (forget_kept r key).trans (ih _)
      · exact kept_refl r

/-- The entry the fold ends with is one of the list, and there is one where the list has any. -/
theorem foldl_min_mem (l : List (Nat × Entry)) (best : Option (Nat × Entry)) :
    let r := l.foldl (fun best p =>
      match best with
      | none => some p
      | some b => if p.2.used < b.2.used then some p else some b) best
    (∀ p, r = some p → p ∈ l ∨ best = some p) ∧ (r = none → l = [] ∧ best = none) := by
  induction l generalizing best with
  | nil => exact ⟨fun p hp => .inr hp, fun h => ⟨rfl, h⟩⟩
  | cons q l ih =>
      cases best with
      | none =>
          obtain ⟨hmem, hnone⟩ := ih (some q)
          refine ⟨fun p hp => ?_, fun h => absurd (hnone h).2 (by simp)⟩
          rcases hmem p hp with h | h
          · exact .inl (List.mem_cons_of_mem _ h)
          · cases h
            exact .inl List.mem_cons_self
      | some b =>
          obtain ⟨hmem, hnone⟩ := ih (if q.2.used < b.2.used then some q else some b)
          refine ⟨fun p hp => ?_, fun h => ?_⟩
          · rcases hmem p hp with h | h
            · exact .inl (List.mem_cons_of_mem _ h)
            · split at h
              · cases h
                exact .inl List.mem_cons_self
              · exact .inr h
          · have := (hnone h).2
            split at this <;> cases this

theorem oldest_some {r : Registry} {key : Nat} (hwalk : ∀ l, (walk l).Perm l)
    (h : r.oldest walk = some key) :
    ∃ e, r.entries[key]? = some e ∧ e.used < r.dispatch ∧ e.state ≠ .deferred := by
  unfold oldest at h
  obtain ⟨⟨k, e⟩, hp, rfl⟩ := Option.map_eq_some_iff.mp h
  rcases (foldl_min_mem _ none).1 _ hp with hmem | hnone
  · obtain ⟨hin, hgo⟩ := List.mem_filter.mp hmem
    rw [Bool.and_eq_true, decide_eq_true_eq, bne_iff_ne] at hgo
    exact ⟨e, Nearest.mem_toList.mp ((hwalk _).mem_iff.mp hin), hgo.1, hgo.2⟩
  · cases hnone

theorem oldest_none {r : Registry} (hwalk : ∀ l, (walk l).Perm l) (hs : Sound r)
    (h : r.oldest walk = none) (k : Nat) (e : Entry) (he : r.entries[k]? = some e) : Stays r e := by
  unfold oldest at h
  have hempty := ((foldl_min_mem _ none).2 (Option.map_eq_none_iff.mp h)).1
  have hout := List.filter_eq_nil_iff.mp hempty (k, e)
    ((hwalk _).mem_iff.mpr (Nearest.mem_toList.mpr he))
  rw [Bool.and_eq_true, decide_eq_true_eq, bne_iff_ne] at hout
  have hle := hs.used k e he
  by_cases hd : e.state = .deferred
  · exact .inr hd
  · exact .inl (by
      by_contra hne
      exact hout ⟨by dsimp only; omega, hd⟩)

theorem forget_dispatch (r : Registry) (key : Nat) : (r.forget key).dispatch = r.dispatch := by
  rcases forget_cases r key with ⟨hsame, -⟩ | ⟨e, -, -, hgone⟩
  · rw [hsame]
  · rw [hgone]

/-- An entry of the dispatch being prepared, or deferred, stays as it was. -/
theorem letOldestGoIn_stays (hwalk : ∀ l, (walk l).Perm l) {r : Registry} {k : Nat} {e : Entry}
    (he : r.entries[k]? = some e) (hstays : Stays r e) (rounds : Nat) :
    (r.letOldestGoIn walk rounds).entries[k]? = some e := by
  induction rounds generalizing r with
  | zero => exact he
  | succ rounds ih =>
      rw [letOldestGoIn]
      split
      · split
        · exact he
        · next key hkey =>
          obtain ⟨e', he', hused, hstate⟩ := oldest_some hwalk hkey
          have hne : k ≠ key := by
            intro heq
            subst heq
            rw [he] at he'
            cases he'
            rcases hstays with hnow | hd
            · omega
            · exact hstate hd
          apply ih
          · rw [getElem?_forget, if_neg (fun h => hne h.1)]
            exact he
          · unfold Stays
            rw [forget_dispatch]
            exact hstays
      · exact he

theorem letOldestGoIn_ends (hwalk : ∀ l, (walk l).Perm l) {r : Registry} (hs : Sound r)
    {rounds : Nat} (hrounds : r.entries.size ≤ rounds) :
    let r' := r.letOldestGoIn walk rounds
    r'.bytes ≤ r'.budget ∨ ∀ (k : Nat) (e : Entry), r'.entries[k]? = some e → Stays r' e := by
  induction rounds generalizing r with
  | zero =>
      right
      intro k e he
      have hnone : r.entries.isEmpty = true := by
        rw [Std.TreeMap.isEmpty_eq_size_eq_zero]
        simpa using hrounds
      have hempty := Std.TreeMap.getElem?_of_isEmpty (a := k) hnone
      rw [letOldestGoIn, hempty] at he
      cases he
  | succ rounds ih =>
      rw [letOldestGoIn]
      split
      · split
        · next hold => exact .inr (oldest_none hwalk hs hold)
        · next key hkey =>
          obtain ⟨e, he, -, hstate⟩ := oldest_some hwalk hkey
          apply ih ((forget_kept r key).sound hs)
          have hgone : (r.forget key).entries = r.entries.erase key := by
            rcases forget_cases r key with ⟨-, hkeep⟩ | ⟨e', -, -, hgone⟩
            · exact absurd (hkeep e he) hstate
            · rw [hgone]
          have hmem : r.entries.contains key = true := by
            rw [Std.TreeMap.contains_eq_isSome_getElem?, he]
            rfl
          rw [hgone, Std.TreeMap.size_erase, if_pos hmem]
          omega
      · next hfits => exact .inl (by omega)

end Room

/-! ## The operations -/

section Watched

variable {W : Type} (watch : WatchOps W)

theorem setUsed_kept {r : Registry} {key : Nat} {e : Entry} (he : r.entries[key]? = some e)
    (placed : List Nat) :
    Kept r ({ r with placed }.setEntry key { e with used := r.dispatch }) := by
  have hplaced : Kept r { r with placed } := kept_of_same rfl rfl rfl (Nat.le_refl _)
  exact hplaced.trans (setEntry_kept he rfl (.inr rfl))

theorem setState_kept {r : Registry} {key : Nat} {e : Entry} (he : r.entries[key]? = some e)
    (state : State) : Kept r (r.setEntry key { e with state }) :=
  setEntry_kept he rfl (.inl rfl)

theorem takeKept_kept (w : W) (r : Registry) (key : Nat) :
    Kept r (r.takeKept watch w key).2.1 := by
  unfold takeKept
  cases he : r.entries[key]? with
  | none => exact kept_refl r
  | some e =>
      dsimp only
      split
      · split
        · exact kept_refl r
        · split
          · exact kept_refl r
          · exact setUsed_kept he _
      · exact kept_refl r

theorem takeDeferred_kept (r : Registry) (key : Nat) : Kept r (r.takeDeferred key).2 := by
  unfold takeDeferred
  cases he : r.entries[key]? with
  | none => exact kept_refl r
  | some e =>
      dsimp only
      split
      · exact kept_refl r
      · split
        · exact kept_refl r
        · exact setUsed_kept he _

theorem carriedOut_kept (w : W) (r : Registry) (key generation : Nat) :
    Kept r (r.carriedOut watch w key generation).1 := by
  unfold carriedOut
  cases he : r.entries[key]? with
  | none => exact kept_refl r
  | some e =>
      dsimp only
      split
      · exact kept_refl r
      · split
        · exact setState_kept he _
        · exact (setState_kept he _).trans (forget_kept _ key)

theorem ranSince_kept (w : W) {r : Registry} {key : Nat} {e : Entry} (stored : Bool) (since : Nat)
    (he : r.entries[key]? = some e) : Kept r (r.ranSince watch w key e stored since).1 := by
  unfold ranSince
  split
  · dsimp only
    split
    · exact forget_kept r key
    · exact setState_kept he _
  · exact setState_kept he _

theorem ranUse_kept (ok : Bool) (rw : Registry × W) (used : Use × Bool) :
    Kept rw.1 (ranUse watch ok rw used).1 := by
  obtain ⟨r, w⟩ := rw
  obtain ⟨u, stored⟩ := used
  unfold ranUse
  dsimp only
  cases he : r.entries[u.key]? with
  | none => exact kept_refl r
  | some e =>
      dsimp only
      split
      · exact forget_kept r _
      · split
        · exact setState_kept he _
        · split
          · exact forget_kept r _
          · exact forget_kept r _
          · exact ranSince_kept watch w stored _ he
          · exact ranSince_kept watch w stored _ he

theorem writtenBackUse_kept (rw : Registry × W) (u : Use) :
    Kept rw.1 (writtenBackUse watch rw u).1 := by
  obtain ⟨r, w⟩ := rw
  unfold writtenBackUse
  dsimp only
  cases he : r.entries[u.key]? with
  | none => exact kept_refl r
  | some e =>
      dsimp only
      split
      · exact kept_refl r
      · split
        · exact setState_kept he _
        · exact forget_kept r _

variable {walk : List (Nat × Entry) → List (Nat × Entry)}

structure Placed (r : Registry) (key : Nat) (r' : Registry) (used : Option Use) : Prop where
  sound : Sound r'
  reports : Reports r r'
  /-- An image read afresh has its room made. -/
  room : ∀ u, used = some u → u.fresh = true →
    r'.bytes ≤ r'.budget ∨ ∀ (k : Nat) (e : Entry), r'.entries[k]? = some e → Stays r' e
  /-- One that is not raises nothing. -/
  level : (∀ u, used = some u → u.fresh = false) → r'.bytes ≤ r.bytes
  deferred : ∀ (k : Nat) (e : Entry), r.entries[k]? = some e → e.state = .deferred →
    if k = key then (r'.entries[k]?).isSome else r'.entries[k]? = some e

theorem Kept.placed {r r' : Registry} {key : Nat} {used : Option Use} (h : Kept r r')
    (hs : Sound r) (hfresh : ∀ u, used = some u → u.fresh = false) (hbytes : r'.bytes ≤ r.bytes)
    (hdeferred : ∀ (k : Nat) (e : Entry), r.entries[k]? = some e → e.state = .deferred →
      if k = key then (r'.entries[k]?).isSome else r'.entries[k]? = some e) :
    Placed r key r' used where
  sound := h.sound hs
  reports := h.reports
  room u hu hf := by
    rw [hfresh u hu] at hf
    cases hf
  level _ := hbytes
  deferred := hdeferred

theorem forget_bytes {r : Registry} (hs : Sound r) (key : Nat) :
    (r.forget key).bytes ≤ r.bytes := by
  rcases forget_cases r key with ⟨hsame, -⟩ | ⟨e, he, -, hgone⟩
  · rw [hsame]
  · have htotal := MapTotal.total_erase Entry.bytes he
    have hbytes := hs.bytes
    have hfits := hs.fits
    rw [hgone]
    dsimp only
    rw [wrappingSub_eq (by omega) (by omega)]
    exact Nat.sub_le _ _

theorem placeTaken_placed {r : Registry} (hs : Sound r) {key : Nat} {e : Entry}
    (he : r.entries[key]? = some e) :
    Placed r key ({ r with placed := key :: r.placed }.setEntry key { e with used := r.dispatch })
      (some ⟨key, e.generation, false, e.state = .deferred⟩) := by
  apply (setUsed_kept he _).placed hs
  · intro u hu
    cases hu
    rfl
  · exact Nat.le_refl _
  · intro k e' he' _
    rw [getElem?_setEntry]
    split
    · rfl
    · exact he'

theorem placeForgotten_placed {r : Registry} (hs : Sound r) (key : Nat) :
    Placed r key ({ r with placed := key :: r.placed }.forget key) none := by
  have hplaced : Kept r { r with placed := key :: r.placed } :=
    kept_of_same rfl rfl rfl (Nat.le_refl _)
  apply (hplaced.trans (forget_kept _ key)).placed hs
  · intro u hu
    cases hu
  · exact forget_bytes (hplaced.sound hs) key
  · intro k e he hd
    have hstill : ({ r with placed := key :: r.placed }.forget key).entries[k]? = some e := by
      rw [getElem?_forget, if_neg]
      · exact he
      · rintro ⟨rfl, hgo⟩
        exact hgo e he hd
    rw [hstill]
    split
    · rfl
    · rfl

/-- The registry with an image read afresh put in it, before room is made. -/
def read (r : Registry) (key : Nat) (span : Span) (bytes since : Nat) : Registry :=
  { r with
    placed := key :: r.placed
    generation := r.generation + 1
    entries := r.entries.insert key ⟨span, bytes, r.generation + 1, .read since, r.dispatch⟩
    bytes := wrappingAdd
      (wrappingSub r.bytes (((r.entries[key]?).map Entry.bytes).getD 0)) bytes }

theorem getElem?_read (r : Registry) (key : Nat) (span : Span) (bytes since k : Nat) :
    (r.read key span bytes since).entries[k]? =
      if k = key then some ⟨span, bytes, r.generation + 1, .read since, r.dispatch⟩
      else r.entries[k]? :=
  getElem?_setEntry r key k _

/-- The bytes of the other entries and those of an image read at a key. -/
def bytesWith (r : Registry) (key bytes : Nat) : Nat :=
  MapTotal.total Entry.bytes (r.entries.erase key) + bytes

/-- What the entries hold once one is read afresh. -/
theorem total_insert_eq (r : Registry) (key : Nat) (e : Entry) :
    MapTotal.total Entry.bytes (r.entries.insert key e) = r.bytesWith key e.bytes := by
  have hgone : (r.entries.erase key)[key]? = none := by
    simp
  have hsame : ∀ k : Nat, (r.entries.insert key e)[k]? = ((r.entries.erase key).insert key e)[k]? := by
    intro k
    simp only [Std.TreeMap.getElem?_insert, Std.TreeMap.getElem?_erase, Nat.compare_eq_eq]
    split
    · rfl
    · rfl
  rw [MapTotal.total_congr Entry.bytes hsame, MapTotal.total_insert Entry.bytes hgone, bytesWith,
    Nat.add_comm]

/-- What is taken off for an old image leaves the others' bytes. -/
theorem bytes_without {r : Registry} (hs : Sound r) (key : Nat) :
    wrappingSub r.bytes (((r.entries[key]?).map Entry.bytes).getD 0) =
      MapTotal.total Entry.bytes (r.entries.erase key) := by
  have hbytes := hs.bytes
  have hfits := hs.fits
  cases he : r.entries[key]? with
  | none =>
      have hsame : ∀ k : Nat, r.entries[k]? = (r.entries.erase key)[k]? := by
        intro k
        simp only [Std.TreeMap.getElem?_erase, Nat.compare_eq_eq]
        split
        · next hk => rw [← hk, he]
        · rfl
      simp only [Option.map_none, Option.getD_none]
      rw [wrappingSub_eq (Nat.zero_le _) (by omega), hbytes, Nat.sub_zero,
        MapTotal.total_congr Entry.bytes hsame]
  | some e =>
      have htotal := MapTotal.total_erase Entry.bytes he
      simp only [Option.map_some, Option.getD_some]
      rw [wrappingSub_eq (by omega) (by omega)]
      omega

theorem read_sound {r : Registry} (hs : Sound r) (key : Nat) (span : Span) {bytes : Nat}
    (hword : r.bytesWith key bytes < bound) (since : Nat) :
    Sound (r.read key span bytes since) := by
  have hword' : MapTotal.total Entry.bytes (r.entries.erase key) + bytes < bound := hword
  have htotal := total_insert_eq r key ⟨span, bytes, r.generation + 1, .read since, r.dispatch⟩
  constructor
  · show wrappingAdd (wrappingSub r.bytes (((r.entries[key]?).map Entry.bytes).getD 0)) bytes =
      MapTotal.total Entry.bytes (r.entries.insert key _)
    rw [bytes_without hs, wrappingAdd_eq hword', htotal]
    rfl
  · show MapTotal.total Entry.bytes (r.entries.insert key _) < bound
    rw [htotal]
    exact hword
  · intro k e he
    rw [getElem?_read] at he
    split at he
    · cases he
      exact Nat.le_refl _
    · exact hs.used k e he

theorem placeRead_placed (hwalk : ∀ l, (walk l).Perm l) {r : Registry} (hs : Sound r) (key : Nat)
    (span : Span) {bytes : Nat} (hword : r.bytesWith key bytes < bound) (since : Nat) :
    Placed r key ((r.read key span bytes since).letOldestGo walk)
      (some ⟨key, r.generation + 1, true, false⟩) := by
  have hsound := read_sound hs key span hword since
  have hget := getElem?_read r key span bytes since
  have hkept : Kept (r.read key span bytes since)
      ((r.read key span bytes since).letOldestGo walk) := letOldestGoIn_kept _ _
  have hown : ((r.read key span bytes since).letOldestGo walk).entries[key]? =
      some ⟨span, bytes, r.generation + 1, .read since, r.dispatch⟩ := by
    apply letOldestGoIn_stays hwalk
    · rw [hget, if_pos rfl]
    · exact .inl rfl
  have hread : Reports r (r.read key span bytes since) := by
    refine ⟨[], (List.append_nil _).symm, List.nodup_nil, fun k => ?_⟩
    refine iff_of_false List.not_mem_nil (fun h => ?_)
    obtain ⟨hsome, hnone⟩ := h
    rw [hget] at hnone
    split at hnone
    · cases hnone
    · rw [hnone] at hsome
      cases hsome
  constructor
  · exact hkept.sound hsound
  · apply hread.trans hkept.reports
    · intro k hnone hsome
      rw [hget] at hnone
      split at hnone
      · cases hnone
      · rw [hnone] at hsome
        cases hsome
    · intro k hsome hnone
      have hne : k ≠ key := by
        intro heq
        subst heq
        rw [hown] at hnone
        cases hnone
      rw [hget, if_neg hne] at hsome
      exact hsome
  · exact fun _ _ _ => letOldestGoIn_ends hwalk hsound (Nat.le_refl _)
  · intro hnot
    cases hnot _ rfl
  · intro k e he hd
    split
    · next hk =>
      rw [hk, hown]
      rfl
    · next hk =>
      apply letOldestGoIn_stays hwalk
      · rw [hget, if_neg hk]
        exact he
      · exact .inr hd

/-- Where an image is read afresh, the bytes are a word with it. -/
def PlaceFits (walk : List (Nat × Entry) → List (Nat × Entry)) (w : W) (r : Registry) (key : Nat)
    (span : Span) (bytes : Nat) : Prop :=
  ((r.place watch walk w key span bytes).1.any Use.fresh) → r.bytesWith key bytes < bound

theorem place_placed (hwalk : ∀ l, (walk l).Perm l) (w : W) {r : Registry} (hs : Sound r)
    (key : Nat) (span : Span) {bytes : Nat} (hfits : PlaceFits watch walk w r key span bytes) :
    Placed r key (r.place watch walk w key span bytes).2.1
      (r.place watch walk w key span bytes).1 := by
  revert hfits
  unfold PlaceFits place
  split
  · intro _
    apply (kept_refl r).placed hs
    · intro u hu
      cases hu
    · exact Nat.le_refl _
    · intro k e he _
      rw [he]
      split
      · rfl
      · rfl
  · dsimp only
    generalize takable watch w span r.entries[key]? = taken
    obtain ⟨taken, w⟩ := taken
    dsimp only
    split
    · next e he => exact fun _ => placeTaken_placed hs he
    · split
      · exact fun _ => placeForgotten_placed hs key
      · exact fun hfits => placeRead_placed hwalk hs key span (hfits rfl) _

end Watched

/-! ## Runs of operations -/

section Runs

variable {W : Type}

inductive Op (W : Type) where
  | begin
  | setBudget (budget : Nat)
  | takeKept (key : Nat)
  | place (key : Nat) (span : Span) (bytes : Nat)
  | ran (uses : Uses) (ok : Bool)
  | writtenBack (uses : Uses)
  | takeDeferred (key : Nat)
  | carriedOut (key generation : Nat)
  | forget (key : Nat)
  | forgetAll
  | takeDropped
  /-- Whatever else comes to the watch. -/
  | watched (w : W)

/-- What the operations answer: a place, or the keys let go. -/
inductive Answer where
  | place (used : Option Use)
  | dropped (keys : List Nat)

variable (watch : WatchOps W) (walk : List (Nat × Entry) → List (Nat × Entry))

def apply (rw : Registry × W) : Op W → (Registry × W) × List Answer
  | .begin => ((rw.1.begin, rw.2), [])
  | .setBudget budget => ((rw.1.setBudget budget, rw.2), [])
  | .takeKept key =>
      let (used, r, w) := rw.1.takeKept watch rw.2 key
      ((r, w), [.place used])
  | .place key span bytes =>
      let (used, r, w) := rw.1.place watch walk rw.2 key span bytes
      ((r, w), [.place used])
  | .ran uses ok => (rw.1.ran watch rw.2 uses ok, [])
  | .writtenBack uses => (rw.1.writtenBack watch rw.2 uses, [])
  | .takeDeferred key =>
      let (used, r) := rw.1.takeDeferred key
      ((r, rw.2), [.place used])
  | .carriedOut key generation => (rw.1.carriedOut watch rw.2 key generation, [])
  | .forget key => ((rw.1.forget key, rw.2), [])
  | .forgetAll => ((rw.1.forgetAll walk, rw.2), [])
  | .takeDropped => ((rw.1.takeDropped.2, rw.2), [.dropped rw.1.takeDropped.1])
  | .watched w => ((rw.1, w), [])

def operations : Machine (Registry × W) (Op W) Answer := ⟨apply watch walk⟩

/-- No place takes the bytes of what is kept past a word. -/
def Fits (rw : Registry × W) : Op W → Prop
  | .place key span bytes => PlaceFits watch walk rw.2 rw.1 key span bytes
  | _ => True

instance decidableFits (rw : Registry × W) : ∀ op, Decidable (Fits watch walk rw op)
  | .place _ _ _ => inferInstanceAs (Decidable (_ → _))
  | .begin | .setBudget _ | .takeKept _ | .ran _ _ | .writtenBack _ | .takeDeferred _
  | .carriedOut _ _ | .forget _ | .forgetAll | .takeDropped | .watched _ =>
      inferInstanceAs (Decidable True)

def Answer.keys : Answer → List Nat
  | .place _ => []
  | .dropped keys => keys

def reported (answers : List Answer) : List Nat := answers.flatMap Answer.keys

/-- How often an entry was taken out of the registry. -/
def removals (key : Nat) (rw : Registry × W) : List (Op W) → Nat
  | [] => 0
  | op :: ops =>
      (if (rw.1.entries[key]?).isSome ∧ (apply watch walk rw op).1.1.entries[key]? = none
        then 1 else 0) + removals key (apply watch walk rw op).1 ops

variable {watch walk}

/-- What an operation takes out of the registry it reports, or will. -/
structure Accounts (rw : Registry × W) (next : (Registry × W) × List Answer) : Prop where
  sound : Sound rw.1 → Sound next.1.1
  keys : ∃ ks, reported next.2 ++ next.1.1.dropped = rw.1.dropped ++ ks ∧ ks.Nodup ∧
    ∀ k : Nat, k ∈ ks ↔ (rw.1.entries[k]?).isSome ∧ next.1.1.entries[k]? = none

theorem Kept.accounts {rw : Registry × W} {next : (Registry × W) × List Answer}
    (h : Kept rw.1 next.1.1) (hquiet : reported next.2 = []) : Accounts rw next := by
  refine ⟨h.sound, ?_⟩
  rw [hquiet]
  exact h.reports

theorem foldl_forget_kept (r : Registry) (keys : List Nat) : Kept r (keys.foldl forget r) :=
  foldl_kept forget forget_kept r keys

theorem apply_accounts (hwalk : ∀ l, (walk l).Perm l) {rw : Registry × W} (hs : Sound rw.1)
    {op : Op W} (hfits : Fits watch walk rw op) : Accounts rw (apply watch walk rw op) := by
  cases op with
  | begin =>
      apply Kept.accounts
      · exact kept_of_same rfl rfl rfl (Nat.le_succ _)
      · rfl
  | setBudget budget =>
      apply Kept.accounts
      · exact kept_of_same rfl rfl rfl (Nat.le_refl _)
      · rfl
  | takeKept key => exact (takeKept_kept watch rw.2 rw.1 key).accounts rfl
  | place key span bytes =>
      have hplaced := place_placed watch hwalk rw.2 hs key span hfits
      exact ⟨fun _ => hplaced.sound, hplaced.reports⟩
  | ran uses ok =>
      exact (foldl_kept_watched (ranUse watch ok) (ranUse_kept watch ok) _ _).accounts rfl
  | writtenBack uses =>
      exact (foldl_kept_watched (writtenBackUse watch) (writtenBackUse_kept watch) _ _).accounts rfl
  | takeDeferred key => exact (takeDeferred_kept rw.1 key).accounts rfl
  | carriedOut key generation => exact (carriedOut_kept watch rw.2 rw.1 key generation).accounts rfl
  | forget key => exact (forget_kept rw.1 key).accounts rfl
  | forgetAll => exact (foldl_forget_kept rw.1 _).accounts rfl
  | takeDropped =>
      refine ⟨fun h => ⟨h.bytes, h.fits, h.used⟩, [], ?_, List.nodup_nil, fun k => ?_⟩
      · show (rw.1.dropped ++ []) ++ [] = rw.1.dropped ++ []
        rw [List.append_nil]
      · refine iff_of_false List.not_mem_nil (fun h => ?_)
        have hnone : rw.1.entries[k]? = none := h.2
        rw [hnone] at h
        cases h.1
  | watched w =>
      apply Kept.accounts
      · exact kept_of_same rfl rfl rfl (Nat.le_refl _)
      · rfl

theorem new_sound (budget : Nat) : Sound (new budget) where
  bytes := rfl
  fits := Nat.two_pow_pos 64
  used k e he := by
    rw [new, Std.TreeMap.getElem?_emptyc] at he
    cases he

theorem after_sound (hwalk : ∀ l, (walk l).Perm l) {rw : Registry × W} (hs : Sound rw.1)
    {ops : List (Op W)} (hfits : (operations watch walk).Meets (Fits watch walk) rw ops) :
    Sound ((operations watch walk).after rw ops).1 :=
  Machine.after_inv_of_meets (m := operations watch walk) (I := fun rw => Sound rw.1)
    (fun _ _ h hfits => (apply_accounts hwalk h hfits).sound h) hs hfits

/-- Every key taken out is reported once for each time, or waits to be. -/
theorem count_reported (hwalk : ∀ l, (walk l).Perm l) (key : Nat) {rw : Registry × W}
    (hs : Sound rw.1) {ops : List (Op W)}
    (hfits : (operations watch walk).Meets (Fits watch walk) rw ops) :
    (reported ((operations watch walk).log rw ops)).count key +
        ((operations watch walk).after rw ops).1.dropped.count key =
      rw.1.dropped.count key + removals watch walk key rw ops := by
  induction ops generalizing rw with
  | nil => exact Nat.zero_add _
  | cons op ops ih =>
      have hop : Accounts rw (apply watch walk rw op) := apply_accounts hwalk hs hfits.1
      obtain ⟨ks, hks, hnodup, hmem⟩ := hop.keys
      have hrest := ih (hop.sound hs) hfits.2
      have hcount := congrArg (List.count key) hks
      rw [List.count_append, List.count_append] at hcount
      have hone : ks.count key =
          if (rw.1.entries[key]?).isSome ∧ (apply watch walk rw op).1.1.entries[key]? = none
          then 1 else 0 := by
        rw [hnodup.count]
        exact if_congr (hmem key) rfl rfl
      have hlog : reported ((operations watch walk).log rw (op :: ops)) =
          reported (apply watch walk rw op).2 ++
            reported ((operations watch walk).log (apply watch walk rw op).1 ops) :=
        List.flatMap_append
      rw [hlog, List.count_append]
      show _ + ((operations watch walk).after (apply watch walk rw op).1 ops).1.dropped.count key =
        _ + (_ + _)
      omega

/-- In every run whose places keep the bytes a word, the bytes counted are the entries', each
entry taken out is reported once, and placing an image makes room without letting go of a
deferred one. -/
theorem registry_accounts (hwalk : ∀ l, (walk l).Perm l) (budget : Nat) (w : W)
    (ops : List (Op W))
    (hfits : (operations watch walk).Meets (Fits watch walk) (new budget, w) ops) :
    let rw := (operations watch walk).after (new budget, w) ops
    rw.1.bytes = MapTotal.total Entry.bytes rw.1.entries ∧
      (∀ key, (reported ((operations watch walk).log (new budget, w) ops)).count key +
        rw.1.dropped.count key = removals watch walk key (new budget, w) ops) ∧
      ∀ key span bytes, PlaceFits watch walk rw.2 rw.1 key span bytes →
        Placed rw.1 key (rw.1.place watch walk rw.2 key span bytes).2.1
          (rw.1.place watch walk rw.2 key span bytes).1 := by
  intro rw
  have hs : Sound rw.1 := after_sound hwalk (new_sound budget) hfits
  refine ⟨hs.bytes, fun key => ?_,
    fun key span bytes hplace => place_placed watch hwalk rw.2 hs key span hplace⟩
  refine Eq.trans (count_reported hwalk key ?_ hfits) (Nat.zero_add _)
  exact new_sound budget

def still : WatchOps Unit where
  mark _ _ := (some 0, ())
  writtenSince _ _ _ := (some false, ())
  write _ _ := ()

/-- Two images read in one dispatch, both over the budget. -/
def twoRead : List (Op Unit) :=
  [.begin, .place 1 ⟨0, 8⟩ 8, .place 2 ⟨8, 8⟩ 8,
    .ran ⟨some ⟨1, 1, true, false⟩, [some ⟨2, 2, true, false⟩], [], []⟩ true, .begin]

theorem registry_accounts_twoRead :
    let rw := (operations still id).after (new 10, ()) twoRead
    rw.1.bytes = MapTotal.total Entry.bytes rw.1.entries ∧
      (∀ key, (reported ((operations still id).log (new 10, ()) twoRead)).count key +
        rw.1.dropped.count key = removals still id key (new 10, ()) twoRead) ∧
      ∀ key span bytes, PlaceFits still id rw.2 rw.1 key span bytes →
        Placed rw.1 key (rw.1.place still id rw.2 key span bytes).2.1
          (rw.1.place still id rw.2 key span bytes).1 :=
  registry_accounts (fun l => List.Perm.refl l) 10 () twoRead (by decide +kernel)

/-- Two images of half the words each, read in one dispatch: neither may go. -/
def halves : List (Op Unit) :=
  [.begin, .place 1 ⟨0, 8⟩ (2 ^ 63), .place 2 ⟨8, 8⟩ (2 ^ 63)]

/-- The next dispatch takes one of two images where it is, and the other, of an earlier dispatch
and not deferred, stays over the budget. And where the entries' bytes are no word, the count is
not theirs. -/
theorem placed_over_budget :
    let r := ((operations still id).after (new 10, ()) (twoRead ++ [.place 1 ⟨0, 8⟩ 8])).1
    let r' := ((operations still id).after (new 10, ()) halves).1
    (r.budget < r.bytes ∧ ∃ e, r.entries[2]? = some e ∧ ¬ Stays r e) ∧
      r'.bytes ≠ MapTotal.total Entry.bytes r'.entries := by
  refine ⟨⟨by decide +kernel, ⟨⟨8, 8⟩, 8, 2, .kept 0, 1⟩, by decide +kernel, fun h => ?_⟩,
    by decide +kernel⟩
  rcases h with hnow | hd
  · exact absurd hnow (by decide +kernel)
  · cases hd

end Runs

end Registry

end Orbistoun.Gpu
