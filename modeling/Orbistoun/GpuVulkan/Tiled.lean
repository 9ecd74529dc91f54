import Orbistoun.GpuVulkan.Imports

/-! # Imports and pieces left out tile the runs

Whatever is committed, refused and released in between, after a sync that succeeds the
imports and the pieces left out tile the runs taken up, and the table was built from those
imports. Two things end that: a table that cannot be built while an older one stands, and
host memory that goes on from one run into the next in a window both are looked through.
-/

namespace Orbistoun.GpuVulkan.Direct

open Std (TreeMap)
open Orbistoun.Lib
open Orbistoun.Lib.U64 (saturatingAdd bound)

theorem saturatingAdd_eq {a b : Nat} (h : a + b ≤ bound - 1) : saturatingAdd a b = a + b :=
  Nat.min_eq_left h

/-! ## The gaps of a run -/

/-- Parts of a range that were imported, one behind another. -/
structure HeldIn (start stop : Nat) (held : List (Nat × Nat)) : Prop where
  ordered : held.Pairwise (fun h h' => h.2 ≤ h'.1)
  inside : ∀ h ∈ held, start ≤ h.1 ∧ h.1 < h.2 ∧ h.2 ≤ stop

/-- What lies between the parts of a range that were imported. -/
structure Between (start stop : Nat) (held pieces : List (Nat × Nat)) : Prop where
  ordered : pieces.Pairwise (fun p q => p.1 + p.2 ≤ q.1)
  inside : ∀ p ∈ pieces, start ≤ p.1 ∧ 0 < p.2 ∧ p.1 + p.2 ≤ stop
  apart : ∀ p ∈ pieces, ∀ h ∈ held, p.1 + p.2 ≤ h.1 ∨ h.2 ≤ p.1
  fills : ∀ x, start ≤ x → x < stop →
    (∃ h ∈ held, h.1 ≤ x ∧ x < h.2) ∨ ∃ p ∈ pieces, p.1 ≤ x ∧ x < p.1 + p.2
  closed : ∀ p ∈ pieces, p.1 + p.2 = stop ∨ ∃ h ∈ held, h.1 = p.1 + p.2

theorem HeldIn.tail {start stop first last : Nat} {held : List (Nat × Nat)}
    (h : HeldIn start stop ((first, last) :: held)) :
    start ≤ first ∧ first < last ∧ last ≤ stop ∧ HeldIn last stop held := by
  obtain ⟨hfirst, hordered⟩ := List.pairwise_cons.mp h.ordered
  obtain ⟨hstart, hbytes, hstop⟩ := h.inside _ List.mem_cons_self
  refine ⟨hstart, hbytes, hstop, hordered, fun p hp => ?_⟩
  obtain ⟨-, hpbytes, hpstop⟩ := h.inside p (List.mem_cons_of_mem _ hp)
  exact ⟨hfirst p hp, hpbytes, hpstop⟩

theorem gapsLoop_between {start stop : Nat} {held : List (Nat × Nat)} (hle : start ≤ stop)
    (h : HeldIn start stop held) : Between start stop held (gapsLoop stop start held) := by
  induction held generalizing start with
  | nil =>
      unfold gapsLoop
      split
      · constructor
        · exact List.pairwise_singleton _ _
        · intro p hp
          rw [List.mem_singleton.mp hp]
          dsimp only
          omega
        · intro p _ h hh
          cases hh
        · intro x hx hx'
          exact .inr ⟨_, List.mem_singleton_self _, by dsimp only; omega⟩
        · intro p hp
          rw [List.mem_singleton.mp hp]
          dsimp only
          omega
      · constructor
        · exact List.Pairwise.nil
        · intro p hp
          cases hp
        · intro p hp
          cases hp
        · intro x hx hx'
          omega
        · intro p hp
          cases hp
  | cons part held ih =>
      obtain ⟨first, last⟩ := part
      obtain ⟨hstart, hbytes, hstop, htail⟩ := h.tail
      have hrest := ih hstop htail
      have hcursor : max start last = last := Nat.max_eq_right (by omega)
      unfold gapsLoop
      rw [hcursor]
      generalize gapsLoop stop last held = rest at hrest ⊢
      have hbefore : ∀ p ∈ (if start < first then [(start, first - start)] else []),
          p = (start, first - start) ∧ start < first := by
        intro p hp
        split at hp
        · exact ⟨List.mem_singleton.mp hp, by assumption⟩
        · cases hp
      constructor
      · apply List.pairwise_append.mpr
        refine ⟨?_, hrest.ordered, ?_⟩
        · split
          · exact List.pairwise_singleton _ _
          · exact List.Pairwise.nil
        · intro p hp q hq
          obtain ⟨rfl, hlt⟩ := hbefore p hp
          have := (hrest.inside q hq).1
          dsimp only
          omega
      · intro p hp
        rcases List.mem_append.mp hp with hp | hp
        · obtain ⟨rfl, hlt⟩ := hbefore p hp
          dsimp only
          omega
        · have := hrest.inside p hp
          omega
      · intro p hp h hh
        rcases List.mem_append.mp hp with hp | hp
        · obtain ⟨rfl, hlt⟩ := hbefore p hp
          rcases List.mem_cons.mp hh with rfl | hh
          · dsimp only
            omega
          · have := (htail.inside h hh).1
            dsimp only
            omega
        · rcases List.mem_cons.mp hh with rfl | hh
          · exact .inr (hrest.inside p hp).1
          · exact hrest.apart p hp h hh
      · intro x hx hx'
        rcases Nat.lt_or_ge x first with hlt | hge
        · refine .inr ⟨(start, first - start), List.mem_append_left _ ?_, by dsimp only; omega⟩
          rw [if_pos (by omega)]
          exact List.mem_singleton_self _
        · rcases Nat.lt_or_ge x last with hlt | hge'
          · exact .inl ⟨_, List.mem_cons_self, hge, hlt⟩
          · rcases hrest.fills x hge' hx' with ⟨h, hh, hin⟩ | ⟨p, hp, hin⟩
            · exact .inl ⟨h, List.mem_cons_of_mem _ hh, hin⟩
            · exact .inr ⟨p, List.mem_append_right _ hp, hin⟩
      · intro p hp
        rcases List.mem_append.mp hp with hp | hp
        · obtain ⟨rfl, hlt⟩ := hbefore p hp
          exact .inr ⟨_, List.mem_cons_self, by dsimp only; omega⟩
        · rcases hrest.closed p hp with hend | ⟨h, hh, hend⟩
          · exact .inl hend
          · exact .inr ⟨h, List.mem_cons_of_mem _ hh, hend⟩

theorem gaps_tiled {base len : Nat} {held : List (Nat × Nat)} (hlen : 0 < len)
    (hfit : base + len ≤ bound - 1) (h : HeldIn base (base + len) held) :
    Tiled (fun b e => b = base ∧ e = base + len) (fun lo hi => (lo, hi) ∈ held)
        (fun lo hi => ∃ n, (lo, n) ∈ gaps (base, len) held ∧ hi = lo + n) ∧
      Between base (base + len) held (gaps (base, len) held) := by
  have hbetween : Between base (base + len) held (gaps (base, len) held) := by
    unfold gaps
    dsimp only
    rw [saturatingAdd_eq hfit]
    exact gapsLoop_between (by omega) h
  generalize gaps (base, len) held = pieces at hbetween ⊢
  refine ⟨?_, hbetween⟩
  have hheld : Apart (fun lo hi => (lo, hi) ∈ held) := by
    refine (Apart.of_ordered h.ordered (fun p hp => (h.inside p hp).2.1)).mono (fun lo hi hs => ?_)
    exact ⟨(lo, hi), hs, rfl, rfl⟩
  have hpieces : Apart (fun lo hi => ∃ n, (lo, n) ∈ pieces ∧ hi = lo + n) := by
    have hproper : Spans.Proper Prod.fst (fun p : Nat × Nat => p.1 + p.2) pieces := by
      intro p hp
      have := hbetween.inside p hp
      dsimp only
      omega
    refine (Apart.of_ordered hbetween.ordered hproper).mono (fun lo hi hs => ?_)
    obtain ⟨n, hn, rfl⟩ := hs
    exact ⟨(lo, n), hn, rfl, rfl⟩
  have hsep : ∀ lo hi lo' hi', (lo, hi) ∈ held →
      (∃ n, (lo', n) ∈ pieces ∧ hi' = lo' + n) → hi ≤ lo' ∨ hi' ≤ lo := by
    rintro lo hi lo' hi' hs ⟨n, hn, rfl⟩
    exact (hbetween.apart _ hn _ hs).symm
  constructor
  · constructor
    · rintro b e ⟨rfl, rfl⟩
      omega
    · rintro b e b' e' ⟨rfl, rfl⟩ ⟨rfl, rfl⟩ hlt
      omega
    · rintro b e e' ⟨-, rfl⟩ ⟨-, rfl⟩
      rfl
  · exact hheld.or hpieces hsep
  · intro lo hi hi' hs hs'
    have := hheld.proper _ _ hs
    have := hpieces.proper _ _ hs'
    have := hsep _ _ _ _ hs hs'
    omega
  · intro lo hi hs
    refine ⟨base, base + len, ⟨rfl, rfl⟩, ?_⟩
    rcases hs with hs | ⟨n, hn, rfl⟩
    · have := h.inside _ hs
      dsimp only at this
      omega
    · have := hbetween.inside _ hn
      dsimp only at this
      omega
  · rintro b e x ⟨rfl, rfl⟩ hx hx'
    rcases hbetween.fills x hx hx' with ⟨p, hp, hin⟩ | ⟨p, hp, hin⟩
    · exact ⟨p.1, p.2, .inl hp, hin⟩
    · exact ⟨p.1, p.1 + p.2, .inr ⟨p.2, hp, rfl⟩, hin⟩
  · rintro lo hi b e ⟨n, hn, rfl⟩ ⟨rfl, rfl⟩ - -
    rcases hbetween.closed _ hn with hend | ⟨p, hp, hend⟩
    · exact .inl hend
    · exact .inr ⟨p.2, by rw [← hend]; exact hp⟩

/-! ## Importing pieces -/

abbrev Imports := TreeMap Nat Imported

theorem le_nextMultipleOf {x m : Nat} (hm : 0 < m) : x ≤ nextMultipleOf x m := by
  unfold nextMultipleOf
  have hmod := Nat.div_add_mod (x + m - 1) m
  have hlt := Nat.mod_lt (x + m - 1) hm
  rw [Nat.mul_comm] at hmod
  omega

/-- What the loop over writable pieces leaves. -/
structure ImportsPieces (imports : Imports) (start stop : Nat) (pieces : List (Nat × Nat))
    (r : Imports × Nat × List (Nat × Nat)) : Prop where
  held : HeldIn start stop r.2.2
  spans : ∀ lo hi, spansOf Imported.len r.1 lo hi ↔
    spansOf Imported.len imports lo hi ∨ (lo, hi) ∈ r.2.2
  within : ∀ h ∈ r.2.2, ∃ p ∈ pieces, p.1 ≤ h.1 ∧ h.2 ≤ p.1 + p.2
  none : r.2.2 = [] → r.1 = imports

theorem importPieces_spec (takes : Nat → Nat → Option Nat) (alignment made : Nat)
    {imports : Imports} {start stop : Nat} {pieces : List (Nat × Nat)}
    (hordered : pieces.Pairwise (fun p q => p.1 + p.2 ≤ q.1))
    (hinside : ∀ p ∈ pieces, start ≤ p.1 ∧ p.1 + p.2 ≤ stop)
    (hfresh : ∀ k i, imports[k]? = some i → k < start ∨ stop ≤ k) :
    ImportsPieces imports start stop pieces
      (importPieces takes alignment pieces imports made) := by
  induction pieces generalizing imports made start with
  | nil =>
      constructor
      · exact ⟨List.Pairwise.nil, fun h hh => by cases hh⟩
      · intro lo hi
        simp [importPieces]
      · intro h hh
        cases hh
      · intro _
        rfl
  | cons piece pieces ih =>
      obtain ⟨first, len⟩ := piece
      obtain ⟨hfirst, hordered⟩ := List.pairwise_cons.mp hordered
      obtain ⟨hstart, hstop⟩ := hinside _ List.mem_cons_self
      have hlater : ∀ p ∈ pieces, start ≤ p.1 ∧ p.1 + p.2 ≤ stop :=
        fun p hp => hinside p (List.mem_cons_of_mem _ hp)
      have hskip : ImportsPieces imports start stop ((first, len) :: pieces)
          (importPieces takes alignment pieces imports made) := by
        obtain ⟨hheld, hspans, hwithin, hnone⟩ := ih made hordered hlater hfresh
        refine ⟨hheld, hspans, fun h hh => ?_, hnone⟩
        obtain ⟨p, hp, hin⟩ := hwithin h hh
        exact ⟨p, List.mem_cons_of_mem _ hp, hin⟩
      rw [importPieces]
      dsimp only at hfirst hstart hstop ⊢
      split
      · exact hskip
      · next hbytes =>
        have hpos : 0 < alignment := by
          rcases Nat.eq_zero_or_pos alignment with rfl | hpos
          · simp at hbytes
          · exact hpos
        have hup := le_nextMultipleOf (x := first) hpos
        have hdown := Nat.div_mul_le_self (first + len) alignment
        generalize nextMultipleOf first alignment = from' at hbytes hup ⊢
        generalize (first + len) / alignment * alignment = last at hbytes hdown ⊢
        split
        · next device _ =>
          have hnew : imports[from']? = none := by
            cases hget : imports[from']? with
            | none => rfl
            | some i =>
                have := hfresh _ _ hget
                omega
          have hfresh' : ∀ k i, (imports.insert from' ⟨from', last - from', device, made⟩)[k]? =
              some i → k < first + len ∨ stop ≤ k := by
            intro k i hget
            rw [TreeMap.getElem?_insert] at hget
            split at hget
            · next hk =>
              have hk : from' = k := compare_eq_iff_eq.mp hk
              omega
            · have := hfresh k i hget
              omega
          obtain ⟨hheld, hspans, hwithin, hnone⟩ := ih (made + 1) hordered
            (fun p hp => ⟨hfirst p hp, (hlater p hp).2⟩) hfresh'
          constructor
          · constructor
            · apply List.pairwise_cons.mpr
              refine ⟨fun h hh => ?_, hheld.ordered⟩
              have := (hheld.inside h hh).1
              omega
            · intro h hh
              rcases List.mem_cons.mp hh with rfl | hh
              · dsimp only
                omega
              · have := hheld.inside h hh
                omega
          · intro lo hi
            rw [hspans, spansOf_insert _ hnew]
            dsimp only
            rw [show from' + (last - from') = last by omega, List.mem_cons, Prod.mk.injEq, or_assoc]
          · intro h hh
            rcases List.mem_cons.mp hh with rfl | hh
            · exact ⟨_, List.mem_cons_self, hup, hdown⟩
            · obtain ⟨p, hp, hin⟩ := hwithin h hh
              exact ⟨p, List.mem_cons_of_mem _ hp, hin⟩
          · intro hnil
            cases hnil
        · exact hskip

/-! ## What is kept -/

def Mapped.Run (s : Mapped) : Nat → Nat → Prop := spansOf id s.runs

def Mapped.Held (s : Mapped) : Nat → Nat → Prop := spansOf Imported.len s.imports

def Mapped.Left (s : Mapped) : Nat → Nat → Prop := spansOf id s.leftOut

def Mapped.InRun (s : Mapped) (lo hi : Nat) : Prop := ∃ b e, s.Run b e ∧ b ≤ lo ∧ hi ≤ e

/-- The imports and the pieces left out tile the runs taken up. -/
structure Mapped.Tight (s : Mapped) : Prop where
  tiled : Tiled s.Run s.Held s.Left
  fits : ∀ b e, s.Run b e → e ≤ bound - 1

/-- They tile them where they lie in one; the others share no byte with any, and are dropped
when the runs are looked at next. -/
structure Mapped.Loose (s : Mapped) : Prop where
  tiled : Tiled s.Run (fun lo hi => s.Held lo hi ∧ s.InRun lo hi)
    (fun lo hi => s.Left lo hi ∧ s.InRun lo hi)
  fits : ∀ b e, s.Run b e → e ≤ bound - 1
  clear : ∀ lo hi, s.Held lo hi ∨ s.Left lo hi → s.InRun lo hi ∨
    (lo < hi ∧ hi ≤ bound - 1 ∧ ∀ b e, s.Run b e → hi ≤ b ∨ e ≤ lo)

/-- What holds between the steps: while the runs are not to be looked at again, nothing is
outside them and a table is the one of the imports. -/
structure Mapped.Right (s : Mapped) : Prop where
  loose : s.Loose
  tight : s.generation ≠ none → s.Tight
  table : s.generation ≠ none → ∀ table, s.table = some table →
    table = s.imports.toList.map Prod.snd

variable {s : Mapped}

theorem Mapped.Tight.loose (h : s.Tight) : s.Loose where
  tiled := h.tiled.congr (fun _ _ => Iff.rfl)
    (fun lo hi => ⟨fun hs => hs.1, fun hs => ⟨hs, h.tiled.within _ _ (.inl hs)⟩⟩)
    (fun lo hi => ⟨fun hs => hs.1, fun hs => ⟨hs, h.tiled.within _ _ (.inr hs)⟩⟩)
  fits := h.fits
  clear _ _ hs := .inl (h.tiled.within _ _ hs)

theorem Mapped.Loose.proper (h : s.Loose) {lo hi : Nat} (hs : s.Held lo hi ∨ s.Left lo hi) :
    lo < hi ∧ hi ≤ bound - 1 := by
  rcases h.clear lo hi hs with hin | ⟨hlt, hfit, -⟩
  · obtain ⟨b, e, hr, hb, he⟩ := hin
    have hfit := h.fits b e hr
    have hlt := h.tiled.tiles.proper lo hi (by
      rcases hs with hs | hs
      · exact .inl ⟨hs, b, e, hr, hb, he⟩
      · exact .inr ⟨hs, b, e, hr, hb, he⟩)
    omega
  · exact ⟨hlt, hfit⟩

theorem right_start : ({} : Mapped).Right where
  loose := by
    have hempty : ∀ {β : Type} (len : β → Nat) (lo hi : Nat),
        ¬ spansOf len (∅ : TreeMap Nat β) lo hi := by
      rintro β len lo hi ⟨v, hv, -⟩
      simp at hv
    refine ⟨Tiled.none.congr ?_ ?_ ?_, ?_, ?_⟩
    · exact fun b e => iff_of_false (hempty _ _ _) id
    · exact fun lo hi => iff_of_false (fun hs => hempty _ _ _ hs.1) id
    · exact fun lo hi => iff_of_false (fun hs => hempty _ _ _ hs.1) id
    · exact fun b e hr => absurd hr (hempty _ _ _)
    · rintro lo hi (hs | hs)
      · exact absurd hs (hempty _ _ _)
      · exact absurd hs (hempty _ _ _)
  tight h := absurd rfl h
  table h := absurd rfl h

/-! ## A release -/

theorem clearOf_iff {base stop start len : Nat} (hfit : start + len ≤ bound - 1) :
    clearOf base stop start len = true ↔ start + len ≤ base ∨ stop ≤ start := by
  unfold clearOf
  rw [saturatingAdd_eq hfit, Bool.or_eq_true, decide_eq_true_eq, decide_eq_true_eq]

section Release

variable (base len : Nat)

theorem release_run (h : s.Loose) (b e : Nat) : (s.release base len).Run b e ↔
    s.Run b e ∧ (e ≤ base ∨ saturatingAdd base len ≤ b) := by
  unfold Mapped.Run Mapped.release
  rw [spansOf_filter]
  constructor
  · rintro ⟨n, hn, hclear, rfl⟩
    have hrun : s.Run b (b + n) := ⟨n, hn, rfl⟩
    exact ⟨hrun, (clearOf_iff (h.fits _ _ hrun)).mp hclear⟩
  · rintro ⟨⟨n, hn, rfl⟩, hclear⟩
    have hrun : s.Run b (b + n) := ⟨n, hn, rfl⟩
    exact ⟨n, hn, (clearOf_iff (h.fits _ _ hrun)).mpr hclear, rfl⟩

theorem release_held (h : s.Loose) (lo hi : Nat) : (s.release base len).Held lo hi ↔
    s.Held lo hi ∧ (hi ≤ base ∨ saturatingAdd base len ≤ lo) := by
  unfold Mapped.Held Mapped.release
  rw [spansOf_filter]
  constructor
  · rintro ⟨i, hi, hclear, rfl⟩
    have hheld : s.Held lo (lo + i.len) := ⟨i, hi, rfl⟩
    exact ⟨hheld, (clearOf_iff (h.proper (.inl hheld)).2).mp hclear⟩
  · rintro ⟨⟨i, hi, rfl⟩, hclear⟩
    have hheld : s.Held lo (lo + i.len) := ⟨i, hi, rfl⟩
    exact ⟨i, hi, (clearOf_iff (h.proper (.inl hheld)).2).mpr hclear, rfl⟩

theorem release_left (h : s.Loose) (lo hi : Nat) : (s.release base len).Left lo hi ↔
    s.Left lo hi ∧ (hi ≤ base ∨ saturatingAdd base len ≤ lo) := by
  unfold Mapped.Left Mapped.release
  rw [spansOf_filter]
  constructor
  · rintro ⟨n, hn, hclear, rfl⟩
    have hleft : s.Left lo (lo + n) := ⟨n, hn, rfl⟩
    exact ⟨hleft, (clearOf_iff (h.proper (.inr hleft)).2).mp hclear⟩
  · rintro ⟨⟨n, hn, rfl⟩, hclear⟩
    have hleft : s.Left lo (lo + n) := ⟨n, hn, rfl⟩
    exact ⟨n, hn, (clearOf_iff (h.proper (.inr hleft)).2).mpr hclear, rfl⟩

theorem release_loose (h : s.Loose) : (s.release base len).Loose := by
  have hsub : ∀ b e, (s.release base len).Run b e → s.Run b e :=
    fun b e hr => ((release_run base len h b e).mp hr).1
  -- What lies in a run that stays shares no byte with the range either.
  have hstays : ∀ lo hi, (s.release base len).InRun lo hi →
      hi ≤ base ∨ saturatingAdd base len ≤ lo := by
    rintro lo hi ⟨b, e, hr, hb, he⟩
    have hclear := ((release_run base len h b e).mp hr).2
    omega
  have hmore : ∀ lo hi, (s.release base len).InRun lo hi → s.InRun lo hi := by
    rintro lo hi ⟨b, e, hr, hin⟩
    exact ⟨b, e, hsub _ _ hr, hin⟩
  constructor
  · refine (h.tiled.restrict hsub).congr (fun _ _ => Iff.rfl) ?_ ?_
    · intro lo hi
      rw [release_held base len h]
      constructor
      · rintro ⟨⟨hs, -⟩, hin⟩
        exact ⟨⟨hs, hmore _ _ hin⟩, hin⟩
      · rintro ⟨⟨hs, -⟩, hin⟩
        exact ⟨⟨hs, hstays _ _ hin⟩, hin⟩
    · intro lo hi
      rw [release_left base len h]
      constructor
      · rintro ⟨⟨hs, -⟩, hin⟩
        exact ⟨⟨hs, hmore _ _ hin⟩, hin⟩
      · rintro ⟨⟨hs, -⟩, hin⟩
        exact ⟨⟨hs, hstays _ _ hin⟩, hin⟩
  · exact fun b e hr => h.fits b e (hsub _ _ hr)
  · intro lo hi hs
    have hs : s.Held lo hi ∨ s.Left lo hi := by
      rcases hs with hs | hs
      · exact .inl ((release_held base len h lo hi).mp hs).1
      · exact .inr ((release_left base len h lo hi).mp hs).1
    obtain ⟨hlt, hfit⟩ := h.proper hs
    rcases h.clear lo hi hs with ⟨b, e, hr, hb, he⟩ | ⟨-, -, hclear⟩
    · by_cases hkept : (s.release base len).Run b e
      · exact .inl ⟨b, e, hkept, hb, he⟩
      · refine .inr ⟨hlt, hfit, fun b' e' hr' => ?_⟩
        by_contra hmeet
        have hbytes := h.tiled.separate.proper _ _ (hsub _ _ hr')
        obtain ⟨hb', he'⟩ := h.tiled.separate.same hr (hsub _ _ hr') (x := max lo b')
          (by omega) (by omega)
        subst hb' he'
        exact hkept hr'
    · exact .inr ⟨hlt, hfit, fun b e hr => hclear b e (hsub _ _ hr)⟩

theorem release_right (h : s.Right) : (s.release base len).Right := by
  have hloose := release_loose base len h.loose
  have hgeneration : (s.release base len).generation ≠ none → s.generation ≠ none ∧
      (s.release base len).imports.size = s.imports.size ∧
      (s.release base len).runs.size = s.runs.size := by
    intro hne
    unfold Mapped.release at hne
    dsimp only at hne
    split at hne
    · exact absurd rfl hne
    · next hsame =>
      rw [ne_eq, not_not, Prod.mk.injEq] at hsame
      exact ⟨hne, hsame⟩
  refine ⟨hloose, fun hne => ?_, fun hne table htable => ?_⟩
  · obtain ⟨hne, himports, hruns⟩ := hgeneration hne
    have htight := h.tight hne
    have hkept := (toList_filter_of_size hruns).2
    -- Every run stays, and with them all that lies in them.
    have hstay : ∀ b e, s.Run b e → (s.release base len).Run b e := by
      rintro b e ⟨n, hn, rfl⟩
      exact (spansOf_filter _ _ _).mpr ⟨n, hn, hkept b n hn, rfl⟩
    refine ⟨hloose.tiled.congr (fun _ _ => Iff.rfl) ?_ ?_, hloose.fits⟩
    · intro lo hi
      refine ⟨fun hs => ⟨hs, ?_⟩, fun hs => hs.1⟩
      obtain ⟨b, e, hr, hin⟩ := htight.tiled.within lo hi
        (.inl ((release_held base len h.loose lo hi).mp hs).1)
      exact ⟨b, e, hstay _ _ hr, hin⟩
    · intro lo hi
      refine ⟨fun hs => ⟨hs, ?_⟩, fun hs => hs.1⟩
      obtain ⟨b, e, hr, hin⟩ := htight.tiled.within lo hi
        (.inr ((release_left base len h.loose lo hi).mp hs).1)
      exact ⟨b, e, hstay _ _ hr, hin⟩
  · obtain ⟨hne, himports, -⟩ := hgeneration hne
    rw [h.table hne table htable]
    exact congrArg (List.map Prod.snd) (toList_filter_of_size himports).1.symm

end Release

/-! ## Runs no longer wanted -/

theorem inRuns_iff {runs : TreeMap Nat Nat} {start len : Nat} (hapart : Apart (spansOf id runs))
    (hfits : ∀ b e, spansOf id runs b e → e ≤ bound - 1) (hlen : 0 < len)
    (hfit : start + len ≤ bound - 1) :
    inRuns runs start len = true ↔ ∃ b e, spansOf id runs b e ∧ b ≤ start ∧ start + len ≤ e := by
  have hsum : ∀ b n, runs[b]? = some n → saturatingAdd b n = b + n :=
    fun b n hn => saturatingAdd_eq (hfits b (b + n) ⟨n, hn, rfl⟩)
  constructor
  · intro h
    unfold inRuns at h
    split at h
    · next base runLen hlast =>
      obtain ⟨hget, hle⟩ := Nearest.last_mem hlast
      rw [decide_eq_true_eq, saturatingAdd_eq hfit, hsum _ _ hget] at h
      exact ⟨base, base + runLen, ⟨runLen, hget, rfl⟩, by simpa using hle, h⟩
    · cases h
  · rintro ⟨b, e, ⟨n, hn, rfl⟩, hb, he⟩
    have hlast : Nearest.lastLE runs start = some (b, n) := by
      apply Nearest.last_eq_some hn (by simpa using hb)
      intro b' n' hn' hle
      by_contra hgt
      have hle : b' ≤ start := by simpa using hle
      have hfar := hapart.apart b (b + id n) b' (b' + id n') ⟨n, hn, rfl⟩ ⟨n', hn', rfl⟩ (by omega)
      simp only [id] at hfar he
      omega
    unfold inRuns
    rw [hlast]
    dsimp only
    rw [decide_eq_true_eq, saturatingAdd_eq hfit, hsum _ _ hn]
    exact he

theorem retain_run {wanted : TreeMap Nat Nat} (b e : Nat) :
    (s.retain wanted).Run b e ↔ s.Run b e ∧ spansOf id wanted b e := by
  unfold Mapped.Run Mapped.retain
  rw [spansOf_filter]
  constructor
  · rintro ⟨n, hn, hkept, rfl⟩
    exact ⟨⟨n, hn, rfl⟩, n, by simpa using hkept, rfl⟩
  · rintro ⟨⟨n, hn, rfl⟩, n', hn', he⟩
    simp only [id, Nat.add_left_cancel_iff] at he
    subst he
    exact ⟨n, hn, by simpa using hn', rfl⟩

theorem retain_tight (h : s.Loose) (wanted : TreeMap Nat Nat) : (s.retain wanted).Tight := by
  have hsub : ∀ b e, (s.retain wanted).Run b e → s.Run b e :=
    fun b e hr => ((retain_run b e).mp hr).1
  have hfits : ∀ b e, (s.retain wanted).Run b e → e ≤ bound - 1 :=
    fun b e hr => h.fits b e (hsub b e hr)
  have hmore : ∀ lo hi, (s.retain wanted).InRun lo hi → s.InRun lo hi := by
    rintro lo hi ⟨b, e, hr, hin⟩
    exact ⟨b, e, hsub _ _ hr, hin⟩
  have hin : ∀ lo len, 0 < len → lo + len ≤ bound - 1 →
      (inRuns (s.retain wanted).runs lo len = true ↔ (s.retain wanted).InRun lo (lo + len)) :=
    fun lo len hlen hfit => inRuns_iff (h.tiled.separate.mono hsub) hfits hlen hfit
  refine ⟨(h.tiled.restrict hsub).congr (fun _ _ => Iff.rfl) ?_ ?_, hfits⟩
  · intro lo hi
    constructor
    · intro hs
      obtain ⟨i, hget, hkept, rfl⟩ := (spansOf_filter _ _ _).mp hs
      have hheld : s.Held lo (lo + i.len) := ⟨i, hget, rfl⟩
      have hproper := h.proper (.inl hheld)
      have hrun := (hin lo i.len (by omega) hproper.2).mp hkept
      exact ⟨⟨hheld, hmore _ _ hrun⟩, hrun⟩
    · rintro ⟨⟨⟨i, hget, rfl⟩, -⟩, hrun⟩
      have hproper := h.proper (.inl ⟨i, hget, rfl⟩)
      exact (spansOf_filter _ _ _).mpr ⟨i, hget, (hin lo i.len (by omega) hproper.2).mpr hrun, rfl⟩
  · intro lo hi
    constructor
    · intro hs
      obtain ⟨n, hget, hkept, rfl⟩ := (spansOf_filter _ _ _).mp hs
      have hleft : s.Left lo (lo + n) := ⟨n, hget, rfl⟩
      have hproper := h.proper (.inr hleft)
      have hrun := (hin lo n (by omega) hproper.2).mp hkept
      exact ⟨⟨hleft, hmore _ _ hrun⟩, hrun⟩
    · rintro ⟨⟨⟨n, hget, rfl⟩, -⟩, hrun⟩
      have hproper := h.proper (.inr ⟨n, hget, rfl⟩)
      simp only [id] at hrun hproper
      exact (spansOf_filter _ _ _).mpr ⟨n, hget, (hin lo n (by omega) hproper.2).mpr hrun, rfl⟩

/-! ## A run taken up -/

theorem takeUp_tight (e : Answers) (alignment : Nat) {base len : Nat} (h : s.Tight)
    (hlen : 0 < len) (hfit : base + len ≤ bound - 1)
    (hsep : ∀ b stop, s.Run b stop → b ≠ base → stop ≤ base ∨ base + len ≤ b) :
    (Mapped.takeUp e alignment s (base, len)).Tight ∧
      ∀ b stop, (Mapped.takeUp e alignment s (base, len)).Run b stop →
        s.Run b stop ∨ (b = base ∧ stop = base + len) := by
  unfold Mapped.takeUp
  dsimp only
  split
  · exact ⟨h, fun b stop hr => .inl hr⟩
  · next hnew =>
    have hnone : s.runs[base]? = none :=
      TreeMap.getElem?_eq_none_of_contains_eq_false (Bool.eq_false_of_not_eq_true hnew)
    have hsep : ∀ b stop, s.Run b stop → stop ≤ base ∨ base + len ≤ b := by
      intro b stop hr
      refine hsep b stop hr (fun heq => ?_)
      subst heq
      obtain ⟨n, hn, -⟩ := hr
      rw [hnone] at hn
      cases hn
    -- No tile of the runs there already starts in the new one.
    have hclear : ∀ lo hi, s.Held lo hi ∨ s.Left lo hi → lo < base ∨ base + len ≤ lo := by
      intro lo hi hs
      obtain ⟨b, stop, hr, hb, he⟩ := h.tiled.within lo hi hs
      have hbytes := h.tiled.tiles.proper _ _ hs
      have := hsep b stop hr
      omega
    have hpieces := e.writable_pieces base len
    have himports := importPieces_spec e.takes alignment s.made hpieces.ordered hpieces.inside
      (fun k i hk => hclear k (k + i.len) (.inl ⟨i, hk, rfl⟩))
    generalize importPieces e.takes alignment (e.writableRuns base len) s.imports s.made =
      taken at himports ⊢
    obtain ⟨htiled, hbetween⟩ := gaps_tiled hlen hfit himports.held
    have hnewLeft : ∀ p ∈ gaps (base, len) taken.2.2, s.leftOut[p.1]? = none := by
      intro p hp
      cases hget : s.leftOut[p.1]? with
      | none => rfl
      | some n =>
          have := hclear p.1 (p.1 + n) (.inr ⟨n, hget, rfl⟩)
          have := hbetween.inside p hp
          omega
    have hdistinct : (gaps (base, len) taken.2.2).Pairwise (fun a b => a.1 ≠ b.1) := by
      apply hbetween.ordered.imp_of_mem
      intro p q hp hq hle
      have := (hbetween.inside p hp).2.1
      omega
    have hrun : ∀ b stop, spansOf id (s.runs.insert base len) b stop ↔
        s.Run b stop ∨ (b = base ∧ stop = base + len) := fun b stop => spansOf_insert len hnone b stop
    refine ⟨⟨?_, ?_⟩, fun b stop hr => (hrun b stop).mp hr⟩
    · refine (h.tiled.union htiled ?_).congr hrun himports.spans ?_
      · rintro b stop b' stop' hr ⟨rfl, rfl⟩
        exact hsep b stop hr
      · exact fun lo hi => spansOf_insertMany hdistinct hnewLeft lo hi
    · intro b stop hr
      rcases (hrun b stop).mp hr with hr | ⟨rfl, rfl⟩
      · exact h.fits b stop hr
      · exact hfit

theorem foldl_takeUp_tight (e : Answers) (alignment : Nat) {all runs : List (Nat × Nat)}
    (hproper : ∀ r ∈ all, 0 < r.2 ∧ r.1 + r.2 ≤ bound - 1)
    (hapart : ∀ r ∈ all, ∀ r' ∈ all, r.1 ≠ r'.1 → r.1 + r.2 ≤ r'.1 ∨ r'.1 + r'.2 ≤ r.1)
    (hsub : ∀ r ∈ runs, r ∈ all) (h : s.Tight)
    (hruns : ∀ b stop, s.Run b stop → ∃ r ∈ all, b = r.1 ∧ stop = r.1 + r.2) :
    (runs.foldl (Mapped.takeUp e alignment) s).Tight ∧
      ∀ b stop, (runs.foldl (Mapped.takeUp e alignment) s).Run b stop →
        ∃ r ∈ all, b = r.1 ∧ stop = r.1 + r.2 := by
  induction runs generalizing s with
  | nil => exact ⟨h, hruns⟩
  | cons run runs ih =>
      obtain ⟨base, len⟩ := run
      have hmem := hsub _ List.mem_cons_self
      obtain ⟨hlen, hfit⟩ := hproper _ hmem
      have hsep : ∀ b stop, s.Run b stop → b ≠ base → stop ≤ base ∨ base + len ≤ b := by
        intro b stop hr hne
        obtain ⟨r, hall, rfl, rfl⟩ := hruns b stop hr
        exact hapart r hall _ hmem hne
      obtain ⟨htight, hmore⟩ := takeUp_tight e alignment h hlen hfit hsep
      rw [List.foldl_cons]
      apply ih (fun r hr => hsub r (List.mem_cons_of_mem _ hr)) htight
      intro b stop hr
      rcases hmore b stop hr with hr | ⟨rfl, rfl⟩
      · exact hruns b stop hr
      · exact ⟨_, hmem, rfl, rfl⟩

section Wanted

variable (e : Answers) (alignment : Nat)

theorem mem_wanted {r : Nat × Nat} (h : r ∈ (e.wanted alignment).toList) : r ∈ e.readableRuns := by
  have hdistinct : (e.readableRuns.filter
      (fun r => r.1 % alignment == 0 && r.2 % alignment == 0)).Pairwise (fun a b => a.1 ≠ b.1) := by
    apply List.Pairwise.filter
    apply e.runs_apart.imp_of_mem
    intro r r' hr hr' hsep
    have := (e.runs_fit r hr).1
    have := (e.runs_fit r' hr').1
    omega
  have hempty : ∀ k, (∅ : TreeMap Nat Nat)[k]? = none := fun k => TreeMap.getElem?_emptyc
  have hspan : spansOf id (e.wanted alignment) r.1 (r.1 + r.2) :=
    ⟨r.2, Nearest.mem_toList.mp h, rfl⟩
  unfold Answers.wanted at hspan
  rcases (spansOf_insertMany hdistinct (fun p _ => hempty p.1) _ _).mp hspan with hold | ⟨n, hn, heq⟩
  · obtain ⟨n, hn, -⟩ := hold
    rw [hempty] at hn
    cases hn
  · have hsame : r.2 = n := by
      simp only [id] at heq
      omega
    have hr : r = (r.1, n) := Prod.ext rfl hsame
    rw [hr]
    exact List.mem_of_mem_filter hn

theorem wanted_proper : ∀ r ∈ (e.wanted alignment).toList, 0 < r.2 ∧ r.1 + r.2 ≤ bound - 1 :=
  fun r hr => e.runs_fit r (mem_wanted e alignment hr)

theorem wanted_apart : ∀ r ∈ (e.wanted alignment).toList, ∀ r' ∈ (e.wanted alignment).toList,
    r.1 ≠ r'.1 → r.1 + r.2 ≤ r'.1 ∨ r'.1 + r'.2 ≤ r.1 := by
  intro r hr r' hr'
  have hone : e.readableRuns.Pairwise
      (fun r r' => r.1 ≠ r'.1 → r.1 + r.2 ≤ r'.1 ∨ r'.1 + r'.2 ≤ r.1) :=
    e.runs_apart.imp (fun {r r'} h (_ : r.1 ≠ r'.1) => h)
  have hother : e.readableRuns.Pairwise
      (flip (fun r r' => r.1 ≠ r'.1 → r.1 + r.2 ≤ r'.1 ∨ r'.1 + r'.2 ≤ r.1)) :=
    e.runs_apart.imp (fun {r r'} h (_ : r'.1 ≠ r.1) => h.symm)
  exact hone.forall_of_forall_of_flip (fun r _ hne => absurd rfl hne) hother
    (mem_wanted e alignment hr) (mem_wanted e alignment hr')

theorem takeUpRuns_tight (h : s.Loose) : (s.takeUpRuns e alignment).Tight ∧
    ∀ b stop, (s.takeUpRuns e alignment).Run b stop → spansOf id (e.wanted alignment) b stop := by
  have hruns : ∀ b stop, (s.retain (e.wanted alignment)).Run b stop →
      ∃ r ∈ (e.wanted alignment).toList, b = r.1 ∧ stop = r.1 + r.2 := by
    intro b stop hr
    obtain ⟨n, hn, rfl⟩ := ((retain_run b stop).mp hr).2
    exact ⟨(b, n), Nearest.mem_toList.mpr hn, rfl, rfl⟩
  obtain ⟨htight, hmore⟩ := foldl_takeUp_tight e alignment (wanted_proper e alignment)
    (wanted_apart e alignment) (fun r hr => hr) (retain_tight h (e.wanted alignment)) hruns
  refine ⟨⟨htight.tiled, htight.fits⟩, fun b stop hr => ?_⟩
  obtain ⟨r, hall, rfl, rfl⟩ := hmore b stop hr
  exact ⟨r.2, Nearest.mem_toList.mp hall, rfl⟩

end Wanted

/-! ## Windows of what is left out -/

/-- Windows apart from each other, all of whose bytes are left out. -/
structure WindowsIn (left : Nat → Nat → Prop) (windows : List (Nat × Nat)) : Prop where
  ordered : windows.Pairwise (fun w w' => w.2 < w'.1)
  proper : ∀ w ∈ windows, w.1 ≤ w.2
  inside : ∀ w ∈ windows, ∀ x, w.1 ≤ x → x < w.2 → ∃ a c, left a c ∧ a ≤ x ∧ x < c

theorem addWindow_inside {left : Nat → Nat → Prop} {windows : List (Nat × Nat)} {window : Nat × Nat}
    (h : WindowsIn left windows.reverse) (hproper : window.1 ≤ window.2)
    (hinside : ∀ x, window.1 ≤ x → x < window.2 → ∃ a c, left a c ∧ a ≤ x ∧ x < c) :
    WindowsIn left (addWindow windows window).reverse := by
  obtain ⟨hordered, hall, hin⟩ := h
  rw [List.pairwise_reverse] at hordered
  simp only [List.mem_reverse] at hall hin
  have hcases : ∀ {l : List (Nat × Nat)}, l.Pairwise (fun w w' => w'.2 < w.1) →
      (∀ w ∈ l, w.1 ≤ w.2) → (∀ w ∈ l, ∀ x, w.1 ≤ x → x < w.2 → ∃ a c, left a c ∧ a ≤ x ∧ x < c) →
      WindowsIn left l.reverse := by
    intro l ho hp hi
    exact ⟨List.pairwise_reverse.mpr ho, by simpa using hp, by simpa using hi⟩
  unfold addWindow
  cases windows with
  | nil =>
      apply hcases
      · exact List.pairwise_singleton _ _
      · intro w hw
        rw [List.mem_singleton.mp hw]
        exact hproper
      · intro w hw
        rw [List.mem_singleton.mp hw]
        exact hinside
  | cons newest older =>
      obtain ⟨start, last⟩ := newest
      dsimp only
      obtain ⟨hnewest, holder⟩ := List.pairwise_cons.mp hordered
      have hlast := hall _ List.mem_cons_self
      split
      · next hjoin =>
        apply hcases
        · exact List.pairwise_cons.mpr ⟨hnewest, holder⟩
        · intro w hw
          rcases List.mem_cons.mp hw with rfl | hw
          · dsimp only at hlast ⊢
            omega
          · exact hall w (List.mem_cons_of_mem _ hw)
        · intro w hw x hx hx'
          rcases List.mem_cons.mp hw with rfl | hw
          · rcases Nat.lt_or_ge x last with hlt | hge
            · exact hin _ List.mem_cons_self x hx hlt
            · exact hinside x (by omega) (by dsimp only at hx'; omega)
          · exact hin w (List.mem_cons_of_mem _ hw) x hx hx'
      · next hfar =>
        apply hcases
        · apply List.pairwise_cons.mpr
          refine ⟨fun w hw => ?_, hordered⟩
          rcases List.mem_cons.mp hw with rfl | hw
          · dsimp only
            omega
          · have := hnewest w hw
            dsimp only at this hlast
            omega
        · intro w hw
          rcases List.mem_cons.mp hw with rfl | hw
          · exact hproper
          · exact hall w hw
        · intro w hw
          rcases List.mem_cons.mp hw with rfl | hw
          · exact hinside
          · exact hin w hw

theorem cellWindow_inside {gap piece : Nat × Nat} (hfit : gap.1 + gap.2 ≤ bound - 1)
    (hstart : gap.1 ≤ piece.1) (hstop : piece.1 + piece.2 ≤ gap.1 + gap.2) :
    gap.1 ≤ (cellWindow gap piece).1 ∧ (cellWindow gap piece).1 ≤ (cellWindow gap piece).2 ∧
      (cellWindow gap piece).2 ≤ gap.1 + gap.2 := by
  have hup := le_nextMultipleOf (x := piece.1 + piece.2) (show 0 < LEFT_OUT_CELL by decide)
  have hdown := Nat.div_mul_le_self piece.1 LEFT_OUT_CELL
  unfold cellWindow
  dsimp only
  rw [saturatingAdd_eq hfit, saturatingAdd_eq (by omega)]
  omega

theorem windowsOf_inside (h : s.Tight) {committedRuns : Nat → Nat → List (Nat × Nat)}
    (hpieces : ∀ base len, PiecesOf base len (committedRuns base len)) :
    WindowsIn s.Left (windowsOf s.leftOut committedRuns) := by
  have hwindow : ∀ w ∈ s.leftOut.toList.flatMap
      (fun gap => (committedRuns gap.1 gap.2).map (cellWindow gap)),
      w.1 ≤ w.2 ∧ ∀ x, w.1 ≤ x → x < w.2 → ∃ a c, s.Left a c ∧ a ≤ x ∧ x < c := by
    intro w hw
    obtain ⟨gap, hgap, hw⟩ := List.mem_flatMap.mp hw
    obtain ⟨piece, hpiece, rfl⟩ := List.mem_map.mp hw
    have hleft : s.Left gap.1 (gap.1 + gap.2) := ⟨gap.2, Nearest.mem_toList.mp hgap, rfl⟩
    obtain ⟨b, stop, hr, -, hstop⟩ := h.tiled.within _ _ (.inr hleft)
    have hfit := h.fits b stop hr
    obtain ⟨hfrom, hto⟩ := (hpieces gap.1 gap.2).inside piece hpiece
    obtain ⟨hlow, hproper, hhigh⟩ := cellWindow_inside (by omega) hfrom hto
    refine ⟨hproper, fun x hx hx' => ⟨_, _, hleft, by omega, by omega⟩⟩
  unfold windowsOf
  generalize s.leftOut.toList.flatMap (fun gap => (committedRuns gap.1 gap.2).map (cellWindow gap)) =
    all at hwindow ⊢
  have hfold : ∀ (l found : List (Nat × Nat)), (∀ w ∈ l, w ∈ all) → WindowsIn s.Left found.reverse →
      WindowsIn s.Left (l.foldl addWindow found).reverse := by
    intro l
    induction l with
    | nil => exact fun found _ h => h
    | cons w l ih =>
        intro found hsub hfound
        obtain ⟨hproper, hinside⟩ := hwindow w (hsub w List.mem_cons_self)
        exact ih (addWindow found w) (fun v hv => hsub v (List.mem_cons_of_mem _ hv))
          (addWindow_inside hfound hproper hinside)
  have hnone : WindowsIn s.Left ([] : List (Nat × Nat)).reverse :=
    ⟨List.Pairwise.nil, fun w hw => (List.not_mem_nil hw).elim,
      fun w hw => (List.not_mem_nil hw).elim⟩
  exact hfold all [] (fun w hw => hw) hnone

/-! ## Pieces left out mapped -/

/-- What the loop over the windows leaves. -/
structure ImportsWindows (e : Answers) (imports : Imports) (windows : List (Nat × Nat))
    (r : Imports × Nat × List (Nat × Nat)) : Prop where
  ordered : r.2.2.Pairwise (fun h h' => h.2 ≤ h'.1)
  inside : ∀ h ∈ r.2.2, h.1 < h.2 ∧ ∃ w ∈ windows, w.1 ≤ h.1 ∧ h.2 ≤ w.2 ∧
    ∃ p ∈ e.writableLater w.1 (w.2 - w.1), p.1 ≤ h.1 ∧ h.2 ≤ p.1 + p.2
  spans : ∀ lo hi, spansOf Imported.len r.1 lo hi ↔
    spansOf Imported.len imports lo hi ∨ (lo, hi) ∈ r.2.2

theorem importWindows_spec (e : Answers) (alignment made : Nat) {imports : Imports}
    {windows : List (Nat × Nat)} (hordered : windows.Pairwise (fun w w' => w.2 < w'.1))
    (hproper : ∀ w ∈ windows, w.1 ≤ w.2)
    (hfresh : ∀ k i, imports[k]? = some i → ∀ w ∈ windows, k < w.1 ∨ w.2 ≤ k) :
    ImportsWindows e imports windows (importWindows e alignment windows imports made) := by
  induction windows generalizing imports made with
  | nil =>
      constructor
      · exact List.Pairwise.nil
      · intro h hh
        cases hh
      · intro lo hi
        simp [importWindows]
  | cons window windows ih =>
      obtain ⟨start, stop⟩ := window
      obtain ⟨hfirst, hordered⟩ := List.pairwise_cons.mp hordered
      have hbytes := hproper _ List.mem_cons_self
      have hpieces := e.later_pieces start (stop - start)
      dsimp only at hfirst hbytes
      rw [importWindows]
      have hhere := importPieces_spec e.takesLater alignment made hpieces.ordered hpieces.inside
        (fun k i hk => by
          have := hfresh k i hk _ List.mem_cons_self
          dsimp only at this
          omega)
      rw [show start + (stop - start) = stop by omega] at hhere
      generalize importPieces e.takesLater alignment (e.writableLater start (stop - start)) imports
        made = here at hhere ⊢
      have hlater := ih here.2.1 hordered (fun w hw => hproper w (List.mem_cons_of_mem _ hw))
        (fun k i hk w hw => by
          have hspan := (hhere.spans k (k + i.len)).mp ⟨i, hk, rfl⟩
          rcases hspan with ⟨i', hi', -⟩ | hheld
          · exact hfresh k i' hi' w (List.mem_cons_of_mem _ hw)
          · have := hhere.held.inside _ hheld
            have := hfirst w hw
            dsimp only at *
            omega)
      generalize importWindows e alignment windows here.1 here.2.1 = later at hlater ⊢
      constructor
      · apply List.pairwise_append.mpr
        refine ⟨hhere.held.ordered, hlater.ordered, fun h hh h' hh' => ?_⟩
        have := hhere.held.inside h hh
        obtain ⟨-, w, hw, hlow, -⟩ := hlater.inside h' hh'
        have := hfirst w hw
        omega
      · intro h hh
        rcases List.mem_append.mp hh with hh | hh
        · obtain ⟨hlow, hlt, hhigh⟩ := hhere.held.inside h hh
          exact ⟨hlt, _, List.mem_cons_self, hlow, hhigh, hhere.within h hh⟩
        · obtain ⟨hlt, w, hw, hin⟩ := hlater.inside h hh
          exact ⟨hlt, w, List.mem_cons_of_mem _ hw, hin⟩
      · intro lo hi
        rw [hlater.spans, hhere.spans, List.mem_append, or_assoc]

/-- No piece that is answered goes on from one run into the next. -/
def Answers.KeepsToRuns (e : Answers) (runs : Nat → Nat → Prop) : Prop :=
  ∀ start len, ∀ p ∈ e.writableLater start len, ∀ b mid stop, runs b mid → runs mid stop →
    p.1 < mid → p.1 + p.2 ≤ mid

theorem held_in_left (h : s.Tight) (e : Answers) (hkeeps : e.KeepsToRuns s.Run)
    {windows : List (Nat × Nat)} (hwindows : WindowsIn s.Left windows)
    {r : Imports × Nat × List (Nat × Nat)} (hr : ImportsWindows e s.imports windows r)
    {held : Nat × Nat} (hheld : held ∈ r.2.2) :
    ∃ lo hi, s.Left lo hi ∧ lo ≤ held.1 ∧ held.2 ≤ hi := by
  obtain ⟨hlt, w, hw, hlow, hhigh, p, hp, hplow, hphigh⟩ := hr.inside held hheld
  have hall : ∀ x, held.1 ≤ x → x < held.2 → ∃ a c, s.Left a c ∧ a ≤ x ∧ x < c :=
    fun x hx hx' => hwindows.inside w hw x (by omega) (by omega)
  obtain ⟨a, c, hleft, ha, hc⟩ := hall held.1 (Nat.le_refl _) hlt
  obtain ⟨b, stop, hrun, hb, hstop⟩ := h.tiled.within _ _ (.inr hleft)
  apply h.tiled.one_left hlt hall hrun (by omega)
  by_contra hpast
  obtain ⟨a', c', hleft', ha', hc'⟩ := hall stop (by omega) (by omega)
  obtain ⟨b', stop', hrun', hb', hstop'⟩ := h.tiled.within _ _ (.inr hleft')
  have hbytes := h.tiled.separate.proper _ _ hrun
  have hnext : b' = stop := by
    by_contra hne
    have := h.tiled.separate.apart _ _ _ _ hrun hrun'
    have := h.tiled.separate.apart _ _ _ _ hrun' hrun
    rcases Nat.lt_trichotomy b b' with hlt | rfl | hgt
    · omega
    · have := h.tiled.separate.unique _ _ _ hrun hrun'
      omega
    · omega
  subst hnext
  have := hkeeps _ _ p hp _ _ _ hrun hrun' (by omega)
  omega

/-- The imports that start in a piece left out are those made in it now. -/
theorem importsIn_held (h : s.Tight) {imports : Imports} {held : List (Nat × Nat)}
    (hordered : held.Pairwise (fun h h' => h.2 ≤ h'.1)) (hbytes : ∀ h ∈ held, h.1 < h.2)
    (hspans : ∀ lo hi, spansOf Imported.len imports lo hi ↔ s.Held lo hi ∨ (lo, hi) ∈ held)
    (hin : ∀ h ∈ held, ∃ lo hi, s.Left lo hi ∧ lo ≤ h.1 ∧ h.2 ≤ hi) {base len : Nat}
    (hleft : s.Left base (base + len)) (hfit : base + len ≤ bound - 1) :
    HeldIn base (base + len) (importsIn imports base len) ∧
      ∀ a b, (a, b) ∈ importsIn imports base len ↔
        (a, b) ∈ held ∧ base ≤ a ∧ b ≤ base + len := by
  have hlefts : Apart s.Left := h.tiled.tiles.mono (fun _ _ hs => .inr hs)
  have hwithin : ∀ p ∈ held, base ≤ p.1 → p.1 < base + len → p.2 ≤ base + len := by
    intro p hp hlow hhigh
    obtain ⟨lo, hi, hleft', hlo, hhi⟩ := hin p hp
    have hlt := hbytes p hp
    obtain ⟨hb, he⟩ := hlefts.same hleft hleft' (x := p.1) (by omega) (by omega)
    omega
  have hmem : ∀ a b, (a, b) ∈ importsIn imports base len ↔
      (a, b) ∈ held ∧ base ≤ a ∧ b ≤ base + len := by
    intro a b
    unfold importsIn
    rw [saturatingAdd_eq hfit]
    constructor
    · intro hab
      obtain ⟨⟨k, i⟩, hk, heq⟩ := List.mem_map.mp hab
      obtain ⟨hk, hrange⟩ := List.mem_filter.mp hk
      rw [Bool.and_eq_true, decide_eq_true_eq, decide_eq_true_eq] at hrange
      dsimp only at heq hrange
      obtain ⟨rfl, rfl⟩ := Prod.mk.inj heq
      have hspan := (hspans k (k + i.len)).mp ⟨i, Nearest.mem_toList.mp hk, rfl⟩
      rcases hspan with hold | hnew
      · exfalso
        have := h.tiled.held_sep hold hleft hrange.1 (Nat.le_refl _)
        have := h.tiled.tiles.proper _ _ (.inl hold)
        omega
      · have hend := hwithin _ hnew hrange.1 hrange.2
        dsimp only at hend
        rw [saturatingAdd_eq (by omega)]
        exact ⟨hnew, hrange.1, hend⟩
    · rintro ⟨hab, hlow, hhigh⟩
      have hlt := hbytes _ hab
      obtain ⟨i, hi, hb⟩ := (hspans a b).mpr (.inr hab)
      dsimp only at hlt
      apply List.mem_map.mpr
      refine ⟨(a, i), List.mem_filter.mpr ⟨Nearest.mem_toList.mpr hi, ?_⟩, ?_⟩
      · rw [Bool.and_eq_true, decide_eq_true_eq, decide_eq_true_eq]
        dsimp only
        omega
      · dsimp only
        rw [saturatingAdd_eq (by omega), hb]
  have hapart : Apart (fun a b => (a, b) ∈ held) :=
    (Apart.of_ordered hordered hbytes).mono (fun a b hab => ⟨(a, b), hab, rfl, rfl⟩)
  refine ⟨⟨?_, fun p hp => ?_⟩, hmem⟩
  · have hkeys : (importsIn imports base len).Pairwise (fun p q => p.1 < q.1) := by
      unfold importsIn
      exact List.pairwise_map.mpr (((Nearest.toList_sorted imports).filter _).imp (fun h => h))
    apply hkeys.imp_of_mem
    intro p q hp hq hlt
    exact hapart.apart p.1 p.2 q.1 q.2 ((hmem _ _).mp hp).1 ((hmem _ _).mp hq).1 hlt
  · obtain ⟨hheld, hlow, hhigh⟩ := (hmem p.1 p.2).mp hp
    exact ⟨hlow, hbytes _ hheld, hhigh⟩

/-- The pieces left out anew, gap by gap. -/
theorem leftOut_spans (h : s.Tight) (parts : Nat × Nat → List (Nat × Nat))
    (hparts : ∀ lo n, s.Left lo (lo + n) → (parts (lo, n)).Pairwise (fun p q => p.1 + p.2 ≤ q.1) ∧
      ∀ p ∈ parts (lo, n), lo ≤ p.1 ∧ 0 < p.2 ∧ p.1 + p.2 ≤ lo + n) (a c : Nat) :
    spansOf id ((∅ : TreeMap Nat Nat).insertMany (s.leftOut.toList.flatMap parts)) a c ↔
      ∃ lo n, s.Left lo (lo + n) ∧ ∃ k, (a, k) ∈ parts (lo, n) ∧ c = a + k := by
  have hleft : ∀ gap ∈ s.leftOut.toList, s.Left gap.1 (gap.1 + gap.2) :=
    fun gap hgap => ⟨gap.2, Nearest.mem_toList.mp hgap, rfl⟩
  have hdistinct : (s.leftOut.toList.flatMap parts).Pairwise (fun p q => p.1 ≠ q.1) := by
    apply List.pairwise_flatMap.mpr
    constructor
    · intro gap hgap
      obtain ⟨hordered, hinside⟩ := hparts gap.1 gap.2 (hleft gap hgap)
      apply hordered.imp_of_mem
      intro p q hp hq hle
      have := hinside p hp
      omega
    · apply (Nearest.toList_sorted s.leftOut).imp_of_mem
      intro gap gap' hgap hgap' hlt p hp q hq
      have hfar := h.tiled.tiles.apart _ _ _ _ (.inr (hleft gap hgap)) (.inr (hleft gap' hgap')) hlt
      have := (hparts gap.1 gap.2 (hleft gap hgap)).2 p hp
      have := (hparts gap'.1 gap'.2 (hleft gap' hgap')).2 q hq
      omega
  rw [spansOf_insertMany hdistinct (fun e _ => by simp)]
  constructor
  · rintro (⟨v, hv, -⟩ | ⟨k, hk, rfl⟩)
    · simp at hv
    · obtain ⟨gap, hgap, hk⟩ := List.mem_flatMap.mp hk
      exact ⟨gap.1, gap.2, hleft gap hgap, k, hk, rfl⟩
  · rintro ⟨lo, n, ⟨n', hn, hend⟩, k, hk, rfl⟩
    rw [id, Nat.add_left_cancel_iff] at hend
    subst hend
    exact .inr ⟨k, List.mem_flatMap.mpr ⟨(lo, n), Nearest.mem_toList.mpr hn, hk⟩, rfl⟩

theorem mapLeftOut_tight (h : s.Tight) (e : Answers) (alignment : Nat)
    (hkeeps : e.KeepsToRuns s.Run) : (s.mapLeftOut e alignment).1.Tight := by
  have hwindows := windowsOf_inside h e.committed_pieces
  have hfresh : ∀ k i, s.imports[k]? = some i → ∀ w ∈ windowsOf s.leftOut e.committedRuns,
      k < w.1 ∨ w.2 ≤ k := by
    intro k i hk w hw
    by_contra hmeet
    have hheld : s.Held k (k + i.len) := ⟨i, hk, rfl⟩
    have hbytes := h.tiled.tiles.proper _ _ (.inl hheld)
    obtain ⟨a, c, hleft, ha, hc⟩ := hwindows.inside w hw k (by omega) (by omega)
    have := h.tiled.held_sep hheld hleft ha (Nat.le_refl _)
    omega
  have hspec := importWindows_spec e alignment s.made hwindows.ordered hwindows.proper hfresh
  unfold Mapped.mapLeftOut
  dsimp only
  generalize windowsOf s.leftOut e.committedRuns = windows at hwindows hspec ⊢
  generalize importWindows e alignment windows s.imports s.made = r at hspec ⊢
  split
  · exact h
  · have hbytes : ∀ held ∈ r.2.2, held.1 < held.2 := fun held hh => (hspec.inside held hh).1
    have hin : ∀ held ∈ r.2.2, ∃ lo hi, s.Left lo hi ∧ lo ≤ held.1 ∧ held.2 ≤ hi :=
      fun held hh => held_in_left h e hkeeps hwindows hspec hh
    have hfits : ∀ lo hi, s.Left lo hi → hi ≤ bound - 1 := by
      intro lo hi hs
      obtain ⟨b, stop, hr, -, hle⟩ := h.tiled.within _ _ (.inr hs)
      have := h.fits b stop hr
      omega
    have hmade : ∀ lo n, s.Left lo (lo + n) →
        HeldIn lo (lo + n) (importsIn r.1 lo n) ∧
          ∀ a b, (a, b) ∈ importsIn r.1 lo n ↔ (a, b) ∈ r.2.2 ∧ lo ≤ a ∧ b ≤ lo + n :=
      fun lo n hs => importsIn_held h hspec.ordered hbytes hspec.spans hin hs (hfits _ _ hs)
    have hgaps : ∀ lo n, s.Left lo (lo + n) →
        Tiled (fun b e => b = lo ∧ e = lo + n) (fun a b => (a, b) ∈ importsIn r.1 lo n)
            (fun a b => ∃ k, (a, k) ∈ gaps (lo, n) (importsIn r.1 lo n) ∧ b = a + k) ∧
          Between lo (lo + n) (importsIn r.1 lo n) (gaps (lo, n) (importsIn r.1 lo n)) := by
      intro lo n hs
      have hlt := h.tiled.tiles.proper _ _ (.inr hs)
      exact gaps_tiled (by omega) (hfits _ _ hs) (hmade lo n hs).1
    have hleft := leftOut_spans h (fun gap => gaps gap (importsIn r.1 gap.1 gap.2))
      (fun lo n hs => ⟨(hgaps lo n hs).2.ordered, (hgaps lo n hs).2.inside⟩)
    have hone : ∀ {lo hi}, s.Left lo hi → ∃ n, hi = lo + n := fun ⟨n, _, hend⟩ => ⟨n, hend⟩
    refine ⟨?_, h.fits⟩
    refine (h.tiled.refine ?_ ?_).congr (fun _ _ => Iff.rfl) hspec.spans hleft
    · rintro a b (hheld | ⟨lo, n, hs, k, hk, rfl⟩)
      · exact hin _ hheld
      · have := (hgaps lo n hs).2.inside _ hk
        exact ⟨lo, lo + n, hs, this.1, this.2.2⟩
    · intro lo hi hs
      obtain ⟨n, rfl⟩ := hone hs
      refine (hgaps lo n hs).1.congr (fun _ _ => Iff.rfl) ?_ ?_
      · exact fun a b => ((hmade lo n hs).2 a b).symm
      · intro a b
        constructor
        · rintro ⟨⟨lo', n', hs', k, hk, rfl⟩, ha, hb⟩
          have hpiece := (hgaps lo' n' hs').2.inside _ hk
          obtain ⟨rfl, hend⟩ := h.tiled.tiles.same (.inr hs) (.inr hs') (x := a)
            (by dsimp only at hpiece; omega) (by dsimp only at hpiece; omega)
          rw [Nat.add_left_cancel_iff] at hend
          subst hend
          exact ⟨k, hk, rfl⟩
        · rintro ⟨k, hk, rfl⟩
          have hpiece := (hgaps lo n hs).2.inside _ hk
          exact ⟨⟨lo, n, hs, k, hk, rfl⟩, hpiece.1, hpiece.2.2⟩

/-! ## A sync -/

theorem takeUp_table (e : Answers) (alignment : Nat) (s : Mapped) (run : Nat × Nat) :
    (Mapped.takeUp e alignment s run).table = s.table := by
  unfold Mapped.takeUp
  split
  · rfl
  · rfl

theorem takeUpRuns_table (e : Answers) (alignment : Nat) (s : Mapped) :
    (s.takeUpRuns e alignment).table = s.table := by
  have hfold : ∀ (runs : List (Nat × Nat)) (s : Mapped),
      (runs.foldl (Mapped.takeUp e alignment) s).table = s.table := by
    intro runs
    induction runs with
    | nil => exact fun s => rfl
    | cons run runs ih => exact fun s => (ih _).trans (takeUp_table e alignment s run)
  exact hfold _ _

theorem mapLeftOut_table (e : Answers) (alignment : Nat) (s : Mapped) :
    (s.mapLeftOut e alignment).1.table = s.table ∧
      (s.mapLeftOut e alignment).1.generation = s.generation ∧
      ((s.mapLeftOut e alignment).2 = false → (s.mapLeftOut e alignment).1 = s) := by
  unfold Mapped.mapLeftOut
  dsimp only
  split
  · exact ⟨rfl, rfl, fun _ => rfl⟩
  · exact ⟨rfl, rfl, fun h => by cases h⟩

/-- The runs a sync leaves taken up, or more. -/
def Mapped.RunsAfter (s : Mapped) (e : Answers) (alignment : Nat) : Nat → Nat → Prop :=
  if s.behind e then spansOf id (e.wanted alignment) else s.Run

/-- No table is found not to be buildable while an older one stands, and no memory mapped
together goes on from one run into the next. -/
def Act.Clean (s : Mapped) : Act → Prop
  | .sync e => (e.built = false → s.table = none) ∧
      ∀ alignment, e.alignment = some alignment → e.KeepsToRuns (s.RunsAfter e alignment)
  | .commitEscaped _ => True
  | .release _ _ => True

/-- What bringing the imports up to date leaves. -/
structure Remapped (s : Mapped) (r : Mapped × Bool) : Prop where
  tight : r.1.Tight
  table : r.1.table = s.table
  kept : r.2 = false → s.generation ≠ none ∧ r.1.imports = s.imports

theorem behind_false {e : Answers} (h : s.behind e = false) : s.generation ≠ none := by
  intro hnone
  unfold Mapped.behind at h
  rw [hnone] at h
  cases h

theorem remap_spec (h : s.Right) (e : Answers) (alignment : Nat)
    (hkeeps : e.KeepsToRuns (s.RunsAfter e alignment)) : Remapped s (s.remap e alignment) := by
  have htaken : ∀ taken, taken = (if s.behind e then s.takeUpRuns e alignment else s) →
      taken.Tight ∧ taken.table = s.table ∧ e.KeepsToRuns taken.Run ∧
        (s.behind e = false → s.generation ≠ none ∧ taken.imports = s.imports) := by
    intro taken htaken
    unfold Mapped.RunsAfter at hkeeps
    split at htaken
    · next hbehind =>
      rw [if_pos hbehind] at hkeeps
      subst htaken
      obtain ⟨htight, hmore⟩ := takeUpRuns_tight e alignment h.loose
      refine ⟨htight, takeUpRuns_table e alignment s, ?_, fun hb => ?_⟩
      · exact fun start len p hp b mid stop hr hr' =>
          hkeeps start len p hp b mid stop (hmore _ _ hr) (hmore _ _ hr')
      · rw [hb] at hbehind
        cases hbehind
    · next hbehind =>
      rw [if_neg hbehind] at hkeeps
      subst htaken
      have hsome := behind_false (Bool.eq_false_of_not_eq_true hbehind)
      exact ⟨h.tight hsome, rfl, hkeeps, fun _ => ⟨hsome, rfl⟩⟩
  obtain ⟨htight, htable, hkeeps, hkept⟩ := htaken _ rfl
  unfold Mapped.remap
  dsimp only
  generalize (if s.behind e then s.takeUpRuns e alignment else s) = taken at *
  split
  · have hmapped := mapLeftOut_tight htight e alignment hkeeps
    obtain ⟨htable', -, hsame⟩ := mapLeftOut_table e alignment taken
    refine ⟨⟨hmapped.tiled, hmapped.fits⟩, htable'.trans htable, fun hr => ?_⟩
    obtain ⟨hbehind, hnothing⟩ := Bool.or_eq_false_iff.mp hr
    obtain ⟨hsome, himports⟩ := hkept hbehind
    refine ⟨hsome, ?_⟩
    dsimp only
    rw [hsame hnothing]
    exact himports
  · exact ⟨htight, htable, hkept⟩

theorem push_ok {e : Answers} {table : List Imported} (h : (s.push e).2 = .ok table) :
    s.table = some table := by
  unfold Mapped.push at h
  split at h
  · next htable =>
    split at h
    · cases h
      exact htable
    · cases h
  · cases h

theorem push_state (e : Answers) : (s.push e).1 = s := by
  unfold Mapped.push
  split
  · split
    · rfl
    · rfl
  · rfl

/-- A state with its table the one of its imports, and what a sync answers from it. -/
theorem Mapped.Tight.right (h : s.Tight)
    (htable : ∀ table, s.table = some table → table = s.imports.toList.map Prod.snd) : s.Right :=
  ⟨h.loose, fun _ => h, fun _ => htable⟩

theorem sync_right (h : s.Right) (e : Answers) (hclean : (Act.sync e).Clean s) :
    (s.sync e).1.Right ∧ ∀ table, (s.sync e).2 = .ok table →
      (s.sync e).1.Tight ∧ table = (s.sync e).1.imports.toList.map Prod.snd := by
  obtain ⟨hbuilt, hkeeps⟩ := hclean
  unfold Mapped.sync
  split
  · exact ⟨h, fun table hok => by cases hok⟩
  · next alignment halignment =>
    obtain ⟨htight, htable, hkept⟩ := remap_spec h e alignment (hkeeps alignment halignment)
    dsimp only
    generalize s.remap e alignment = r at htight htable hkept ⊢
    -- The push words are of the table of the imports held.
    have hpush : ∀ s' : Mapped, s'.Tight →
        (∀ table, s'.table = some table → table = s'.imports.toList.map Prod.snd) →
        (s'.push e).1.Right ∧ ∀ table, (s'.push e).2 = .ok table →
          (s'.push e).1.Tight ∧ table = (s'.push e).1.imports.toList.map Prod.snd := by
      intro s' htight' htable'
      rw [push_state]
      exact ⟨htight'.right htable', fun table hok => ⟨htight', htable' table (push_ok hok)⟩⟩
    split
    · split
      · next hfails =>
        have hnone := hbuilt (by simpa using hfails)
        refine ⟨htight.right (fun table ht => ?_), fun table hok => by cases hok⟩
        rw [htable, hnone] at ht
        cases ht
      · split
        · refine ⟨?_, fun table hok => by cases hok⟩
          apply Mapped.Tight.right
          · exact ⟨htight.tiled, htight.fits⟩
          · intro table ht
            cases ht
        · apply hpush
          · exact ⟨htight.tiled, htight.fits⟩
          · intro table ht
            cases ht
            rfl
    · next hsame =>
      obtain ⟨hsome, himports⟩ := hkept (Bool.eq_false_of_not_eq_true hsame)
      apply hpush _ htight
      intro table ht
      rw [htable] at ht
      rw [himports]
      exact h.table hsome table ht

/-! ## Runs -/

theorem step_right (h : s.Right) (a : Act) (hclean : a.Clean s) : (machine.step s a).1.Right := by
  cases a with
  | sync e => exact (sync_right h e hclean).1
  | commitEscaped page => exact h
  | release base len => exact release_right base len h

theorem after_right {as : List Act} (h : machine.Meets (fun s a => a.Clean s) {} as) :
    (machine.after {} as).Right :=
  Machine.after_inv_of_meets (I := Mapped.Right) (fun _ a h hclean => step_right h a hclean)
    right_start h

/-- After every sync that succeeds the imports and the pieces left out tile the runs taken up,
and the table answered is the one of the imports held. -/
theorem sync_follows (as : List Act) (e : Answers) (table : List Imported)
    (h : machine.Meets (fun s a => a.Clean s) {} (as ++ [.sync e]))
    (hok : machine.log (machine.after {} as) [.sync e] = [.ok table]) :
    (machine.after {} (as ++ [.sync e])).Tight ∧
      table = (machine.after {} (as ++ [.sync e])).imports.toList.map Prod.snd := by
  obtain ⟨has, hclean, -⟩ := Machine.meets_append.mp h
  have hright := after_right has
  rw [Machine.after_append, Machine.after_cons, Machine.after_nil]
  rw [Machine.log_cons, Machine.log_nil, List.append_nil] at hok
  have hanswer : ((machine.after {} as).sync e).2 = .ok table := (List.cons.inj hok).1
  exact (sync_right hright e hclean).2 table hanswer

def answering (pages generation : Nat) (readableRuns : List (Nat × Nat)) (built later : Bool)
    (runs_apart : readableRuns.Pairwise (fun r r' => r.1 + r.2 ≤ r'.1 ∨ r'.1 + r'.2 ≤ r.1))
    (runs_fit : ∀ r ∈ readableRuns, 0 < r.2 ∧ r.1 + r.2 ≤ bound - 1) : Answers :=
  have whole : ∀ base len, PiecesOf base len [(base, len)] := fun base len =>
    ⟨List.pairwise_singleton _ _, fun p hp => by simp [List.mem_singleton.mp hp]⟩
  { alignment := some 4096
    pages, generationRead := generation, generation, readableRuns
    writableRuns := fun base len => if later then [] else [(base, len)]
    takes := fun base _ => some base
    committedRuns := fun base len => [(base, len)]
    writableLater := fun base len => [(base, len)]
    takesLater := fun base _ => if later then some base else none
    built, placed := true, pushed := true
    runs_apart, runs_fit
    writable_pieces := fun base len => by
      split
      · exact ⟨List.Pairwise.nil, fun p hp => (List.not_mem_nil hp).elim⟩
      · exact whole base len
    committed_pieces := whole
    later_pieces := whole }

/-- A run taken up, then a release in it and a sync that finds it readable still. -/
theorem sync_follows_release :
    let e := answering 1 1 [(0x10000, 0x4000)] true false (by decide) (by decide)
    let as : List Act := [.sync e, .release 0x12000 0x1000]
    (machine.after {} (as ++ [.sync e])).Tight ∧
      [⟨0x10000, 0x4000, 0x10000, 1⟩] =
        (machine.after {} (as ++ [.sync e])).imports.toList.map Prod.snd := by
  intro e as
  have hclean : ∀ s : Mapped, s.behind e = true → (Act.sync e).Clean s := by
    intro s hbehind
    refine ⟨fun hbuilt => (Bool.noConfusion hbuilt), fun alignment _ => ?_⟩
    intro start len p hp b mid stop hr hr'
    unfold Mapped.RunsAfter at hr hr'
    rw [if_pos hbehind] at hr hr'
    obtain ⟨n, hn, rfl⟩ := hr
    obtain ⟨n', hn', -⟩ := hr'
    have hone : ∀ {k v}, (e.wanted alignment)[k]? = some v → (k, v) = (0x10000, 0x4000) :=
      fun hk => List.mem_singleton.mp (mem_wanted e alignment (Nearest.mem_toList.mpr hk))
    cases hone hn
    cases hone hn'
  apply sync_follows as e
  · exact ⟨hclean _ (by decide +kernel), trivial, hclean _ (by decide +kernel), trivial⟩
  · decide +kernel

/-- Five pages whose chunks all have one home are in no table: the sync that fails has noted the
generation, and the next answers the table of an import dropped by then. In the other run pages
committed across two runs become one import. -/
theorem sync_not_follows :
    (∃ (as : List Act) (e : Answers) (table : List Imported),
      machine.log (machine.after {} as) [.sync e] = [.ok table] ∧
        table ≠ (machine.after {} (as ++ [.sync e])).imports.toList.map Prod.snd) ∧
    ∃ (as : List Act) (e : Answers) (table : List Imported),
      machine.log (machine.after {} as) [.sync e] = [.ok table] ∧
        ¬ (machine.after {} (as ++ [.sync e])).Tight := by
  constructor
  · let first := answering 0 1 [(0x20000, 0x1000)] true false (by decide) (by decide)
    let unplaced := answering 0 2
      ((List.range 5).map (fun k => (k * 2 ^ 44 + (8 + k) * 0x1000, 0x1000))) false false
      (by decide) (by decide)
    exact ⟨[.sync first, .sync unplaced], unplaced, [⟨0x20000, 0x1000, 0x20000, 0⟩],
      by decide +kernel, by decide +kernel⟩
  · let across := answering 0 1 [(0x200000, 0x200000), (0x400000, 0x200000)] true true
      (by decide) (by decide)
    refine ⟨[], across, [⟨0x200000, 0x400000, 0x200000, 0⟩], by decide +kernel, fun h => ?_⟩
    have hheld : (machine.after {} ([] ++ [.sync across])).Held 0x200000 0x600000 :=
      ⟨⟨0x200000, 0x400000, 0x200000, 0⟩, by decide +kernel, rfl⟩
    obtain ⟨b, stop, ⟨n, hn, rfl⟩, hb, hstop⟩ := h.tiled.within _ _ (.inl hheld)
    have hruns : (machine.after {} ([] ++ [.sync across])).runs.toList =
      [(0x200000, 0x200000), (0x400000, 0x200000)] := by decide +kernel
    have hmem := Nearest.mem_toList.mpr hn
    rw [hruns] at hmem
    simp only [List.mem_cons, Prod.mk.injEq, List.not_mem_nil, or_false, id] at hmem hstop
    omega

end Orbistoun.GpuVulkan.Direct
