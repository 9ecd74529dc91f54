import Orbistoun.Lib.Spans

/-! # Runs tiled by two kinds of spans

Runs that share no byte, each filled exactly by spans that are held and spans that are
left out. Tilings of separate runs join, and a tiling stays one when every span left out
is tiled anew.
-/

namespace Orbistoun.Lib

/-- The spans each have bytes and share none; a span is told by its first byte. -/
structure Apart (T : Nat → Nat → Prop) : Prop where
  proper : ∀ lo hi, T lo hi → lo < hi
  apart : ∀ lo hi lo' hi', T lo hi → T lo' hi' → lo < lo' → hi ≤ lo'
  unique : ∀ lo hi hi', T lo hi → T lo hi' → hi = hi'

namespace Apart

variable {T T' : Nat → Nat → Prop}

/-- Two spans with a byte in common are one. -/
theorem same (h : Apart T) {lo hi lo' hi' x : Nat} (hs : T lo hi) (hs' : T lo' hi')
    (hx : lo ≤ x ∧ x < hi) (hx' : lo' ≤ x ∧ x < hi') : lo = lo' ∧ hi = hi' := by
  have hlo : lo = lo' := by
    rcases Nat.lt_trichotomy lo lo' with hlt | heq | hgt
    · have := h.apart _ _ _ _ hs hs' hlt
      omega
    · exact heq
    · have := h.apart _ _ _ _ hs' hs hgt
      omega
  subst hlo
  exact ⟨rfl, h.unique _ _ _ hs hs'⟩

theorem mono (h : Apart T) (hsub : ∀ lo hi, T' lo hi → T lo hi) : Apart T' where
  proper lo hi hs := h.proper lo hi (hsub _ _ hs)
  apart _ _ _ _ hs hs' hlt := h.apart _ _ _ _ (hsub _ _ hs) (hsub _ _ hs') hlt
  unique _ _ _ hs hs' := h.unique _ _ _ (hsub _ _ hs) (hsub _ _ hs')

/-- Spans of two sets that share no byte with each other. -/
theorem or (h : Apart T) (h' : Apart T')
    (hsep : ∀ lo hi lo' hi', T lo hi → T' lo' hi' → hi ≤ lo' ∨ hi' ≤ lo) :
    Apart (fun lo hi => T lo hi ∨ T' lo hi) where
  proper lo hi hs := by
    rcases hs with hs | hs
    · exact h.proper lo hi hs
    · exact h'.proper lo hi hs
  apart lo hi lo' hi' hs hs' hlt := by
    rcases hs with hs | hs <;> rcases hs' with hs' | hs'
    · exact h.apart _ _ _ _ hs hs' hlt
    · have hfar := hsep _ _ _ _ hs hs'
      have hbytes := h'.proper _ _ hs'
      omega
    · have hfar := hsep _ _ _ _ hs' hs
      have hbytes := h.proper _ _ hs'
      omega
    · exact h'.apart _ _ _ _ hs hs' hlt
  unique lo hi hi' hs hs' := by
    rcases hs with hs | hs <;> rcases hs' with hs' | hs'
    · exact h.unique _ _ _ hs hs'
    · have hfar := hsep _ _ _ _ hs hs'
      have := h.proper _ _ hs
      have := h'.proper _ _ hs'
      omega
    · have hfar := hsep _ _ _ _ hs' hs
      have := h.proper _ _ hs'
      have := h'.proper _ _ hs
      omega
    · exact h'.unique _ _ _ hs hs'

theorem of_ordered {ι : Type*} {lo hi : ι → Nat} {l : List ι} (hordered : Spans.Ordered lo hi l)
    (hproper : Spans.Proper lo hi l) : Apart (fun x y => ∃ a ∈ l, lo a = x ∧ hi a = y) := by
  have hpair : ∀ a ∈ l, ∀ b ∈ l, a = b ∨ hi a ≤ lo b ∨ hi b ≤ lo a := by
    intro a ha b hb
    have hone : l.Pairwise (fun a b => a = b ∨ hi a ≤ lo b ∨ hi b ≤ lo a) :=
      hordered.imp (fun h => .inr (.inl h))
    have hother : l.Pairwise (flip (fun a b => a = b ∨ hi a ≤ lo b ∨ hi b ≤ lo a)) :=
      hordered.imp (fun h => .inr (.inr h))
    exact hone.forall_of_forall_of_flip (fun a _ => .inl rfl) hother ha hb
  constructor
  · rintro _ _ ⟨a, ha, rfl, rfl⟩
    exact hproper a ha
  · rintro _ _ _ _ ⟨a, ha, rfl, rfl⟩ ⟨b, hb, rfl, rfl⟩ hlt
    have hbytes := hproper b hb
    rcases hpair a ha b hb with rfl | h | h
    · omega
    · exact h
    · omega
  · rintro _ _ _ ⟨a, ha, rfl, rfl⟩ ⟨b, hb, hlo, rfl⟩
    have hbytes := hproper a ha
    have hbytes' := hproper b hb
    rcases hpair a ha b hb with rfl | h | h
    · rfl
    · omega
    · omega

end Apart

/-- The runs are filled by the spans held and the spans left out, each in one run; a span left
out goes up to the end of its run or to a span held. -/
structure Tiled (runs held left : Nat → Nat → Prop) : Prop where
  separate : Apart runs
  tiles : Apart (fun lo hi => held lo hi ∨ left lo hi)
  kinds : ∀ lo hi hi', held lo hi → ¬ left lo hi'
  within : ∀ lo hi, held lo hi ∨ left lo hi → ∃ b e, runs b e ∧ b ≤ lo ∧ hi ≤ e
  fills : ∀ b e x, runs b e → b ≤ x → x < e →
    ∃ lo hi, (held lo hi ∨ left lo hi) ∧ lo ≤ x ∧ x < hi
  closed : ∀ lo hi b e, left lo hi → runs b e → b ≤ lo → hi ≤ e → hi = e ∨ ∃ hi', held hi hi'

namespace Tiled

variable {runs held left runs' held' left' : Nat → Nat → Prop}

theorem none : Tiled (fun _ _ => False) (fun _ _ => False) (fun _ _ => False) where
  separate := ⟨fun _ _ h => h.elim, fun _ _ _ _ h => h.elim, fun _ _ _ h => h.elim⟩
  tiles := ⟨fun _ _ h => (or_self_iff.mp h).elim, fun _ _ _ _ h => (or_self_iff.mp h).elim,
    fun _ _ _ h => (or_self_iff.mp h).elim⟩
  kinds _ _ _ h := h.elim
  within _ _ h := (or_self_iff.mp h).elim
  fills _ _ _ h := h.elim
  closed _ _ _ _ h := h.elim

theorem tiles_sep (h : Tiled runs held left) (h' : Tiled runs' held' left')
    (hsep : ∀ b e b' e', runs b e → runs' b' e' → e ≤ b' ∨ e' ≤ b) :
    ∀ lo hi lo' hi', held lo hi ∨ left lo hi → held' lo' hi' ∨ left' lo' hi' →
      hi ≤ lo' ∨ hi' ≤ lo := by
  intro lo hi lo' hi' hs hs'
  obtain ⟨b, e, hr, hb, he⟩ := h.within _ _ hs
  obtain ⟨b', e', hr', hb', he'⟩ := h'.within _ _ hs'
  have := hsep _ _ _ _ hr hr'
  omega

theorem union (h : Tiled runs held left) (h' : Tiled runs' held' left')
    (hsep : ∀ b e b' e', runs b e → runs' b' e' → e ≤ b' ∨ e' ≤ b) :
    Tiled (fun b e => runs b e ∨ runs' b e) (fun lo hi => held lo hi ∨ held' lo hi)
      (fun lo hi => left lo hi ∨ left' lo hi) where
  separate := h.separate.or h'.separate hsep
  tiles := by
    refine (h.tiles.or h'.tiles (h.tiles_sep h' hsep)).mono (fun lo hi hs => ?_)
    tauto
  kinds lo hi hi' hs hs' := by
    rcases hs with hs | hs <;> rcases hs' with hs' | hs'
    · exact h.kinds _ _ _ hs hs'
    · have hfar := h.tiles_sep h' hsep _ _ _ _ (.inl hs) (.inr hs')
      have := h.tiles.proper _ _ (.inl hs)
      have := h'.tiles.proper _ _ (.inr hs')
      omega
    · have hfar := h.tiles_sep h' hsep _ _ _ _ (.inr hs') (.inl hs)
      have := h.tiles.proper _ _ (.inr hs')
      have := h'.tiles.proper _ _ (.inl hs)
      omega
    · exact h'.kinds _ _ _ hs hs'
  within lo hi hs := by
    have hs : (held lo hi ∨ left lo hi) ∨ (held' lo hi ∨ left' lo hi) := by tauto
    rcases hs with hs | hs
    · obtain ⟨b, e, hr, hin⟩ := h.within _ _ hs
      exact ⟨b, e, .inl hr, hin⟩
    · obtain ⟨b, e, hr, hin⟩ := h'.within _ _ hs
      exact ⟨b, e, .inr hr, hin⟩
  fills b e x hr hb he := by
    rcases hr with hr | hr
    · obtain ⟨lo, hi, hs, hx⟩ := h.fills _ _ _ hr hb he
      exact ⟨lo, hi, by tauto, hx⟩
    · obtain ⟨lo, hi, hs, hx⟩ := h'.fills _ _ _ hr hb he
      exact ⟨lo, hi, by tauto, hx⟩
  closed lo hi b e hs hr hb he := by
    have hbytes : lo < hi := by
      rcases hs with hs | hs
      · exact h.tiles.proper _ _ (.inr hs)
      · exact h'.tiles.proper _ _ (.inr hs)
    rcases hs with hs | hs <;> rcases hr with hr | hr
    · rcases h.closed _ _ _ _ hs hr hb he with hend | ⟨hi', hnext⟩
      · exact .inl hend
      · exact .inr ⟨hi', .inl hnext⟩
    · obtain ⟨b', e', hr', hb', he'⟩ := h.within _ _ (.inr hs)
      have := hsep _ _ _ _ hr' hr
      omega
    · obtain ⟨b', e', hr', hb', he'⟩ := h'.within _ _ (.inr hs)
      have := hsep _ _ _ _ hr hr'
      omega
    · rcases h'.closed _ _ _ _ hs hr hb he with hend | ⟨hi', hnext⟩
      · exact .inl hend
      · exact .inr ⟨hi', .inr hnext⟩

/-- A span held and anything within a span left out share no byte. -/
theorem held_sep (h : Tiled runs held left) {lo hi a b x y : Nat} (hs : held x y)
    (hleft : left lo hi) (ha : lo ≤ a) (hb : b ≤ hi) : y ≤ a ∨ b ≤ x := by
  have hne : x ≠ lo := by
    intro heq
    subst heq
    exact h.kinds _ _ _ hs hleft
  rcases Nat.lt_or_gt_of_ne hne with hlt | hgt
  · have := h.tiles.apart _ _ _ _ (.inl hs) (.inr hleft) hlt
    omega
  · have := h.tiles.apart _ _ _ _ (.inr hleft) (.inl hs) hgt
    omega

theorem refine (h : Tiled runs held left)
    (hin : ∀ a b, held' a b ∨ left' a b → ∃ lo hi, left lo hi ∧ lo ≤ a ∧ b ≤ hi)
    (hparts : ∀ lo hi, left lo hi → Tiled (fun b e => b = lo ∧ e = hi)
      (fun a b => held' a b ∧ lo ≤ a ∧ b ≤ hi) (fun a b => left' a b ∧ lo ≤ a ∧ b ≤ hi)) :
    Tiled runs (fun a b => held a b ∨ held' a b) left' := by
  have hnew : ∀ {a b}, held' a b ∨ left' a b → ∃ lo hi, left lo hi ∧ lo ≤ a ∧ b ≤ hi ∧
      ((held' a b ∧ lo ≤ a ∧ b ≤ hi) ∨ (left' a b ∧ lo ≤ a ∧ b ≤ hi)) := by
    intro a b hs
    obtain ⟨lo, hi, hleft, ha, hb⟩ := hin a b hs
    exact ⟨lo, hi, hleft, ha, hb, by tauto⟩
  have hapart : Apart (fun a b => held' a b ∨ left' a b) := by
    constructor
    · intro a b hs
      obtain ⟨lo, hi, hleft, -, -, hpart⟩ := hnew hs
      exact (hparts _ _ hleft).tiles.proper _ _ hpart
    · intro a b a' b' hs hs' hlt
      obtain ⟨lo, hi, hleft, ha, hb, hpart⟩ := hnew hs
      obtain ⟨lo', hi', hleft', ha', hb', hpart'⟩ := hnew hs'
      have hbytes := (hparts _ _ hleft').tiles.proper _ _ hpart'
      rcases Nat.lt_trichotomy lo lo' with hlo | hlo | hlo
      · have := h.tiles.apart _ _ _ _ (.inr hleft) (.inr hleft') hlo
        omega
      · subst hlo
        have hhi := h.tiles.unique _ _ _ (.inr hleft) (.inr hleft')
        subst hhi
        exact (hparts _ _ hleft).tiles.apart _ _ _ _ hpart hpart' hlt
      · have := h.tiles.apart _ _ _ _ (.inr hleft') (.inr hleft) hlo
        omega
    · intro a b b' hs hs'
      obtain ⟨lo, hi, hleft, ha, hb, hpart⟩ := hnew hs
      obtain ⟨lo', hi', hleft', ha', hb', hpart'⟩ := hnew hs'
      have hbytes := (hparts _ _ hleft).tiles.proper _ _ hpart
      have hbytes' := (hparts _ _ hleft').tiles.proper _ _ hpart'
      obtain ⟨hlo, hhi⟩ := h.tiles.same (.inr hleft) (.inr hleft') (x := a) (by omega) (by omega)
      subst hlo hhi
      exact (hparts _ _ hleft).tiles.unique _ _ _ hpart hpart'
  have hheld : Apart held := h.tiles.mono (fun _ _ hs => .inl hs)
  constructor
  · exact h.separate
  · refine (hheld.or hapart ?_).mono (fun a b hs => by tauto)
    intro x y a b hs hs'
    obtain ⟨lo, hi, hleft, ha, hb, -⟩ := hnew hs'
    exact h.held_sep hs hleft ha hb
  · intro a b b' hs hs'
    obtain ⟨lo, hi, hleft, ha, hb, hpart⟩ := hnew (.inr hs')
    rcases hs with hs | hs
    · have hfar := h.held_sep hs hleft ha hb
      have := hheld.proper _ _ hs
      have := hapart.proper _ _ (.inr hs')
      omega
    · have hsame := hapart.unique _ _ _ (.inl hs) (.inr hs')
      subst hsame
      exact (hparts _ _ hleft).kinds _ _ _ ⟨hs, ha, hb⟩ ⟨hs', ha, hb⟩
  · intro a b hs
    have hs : held a b ∨ (held' a b ∨ left' a b) := by tauto
    rcases hs with hs | hs
    · exact h.within _ _ (.inl hs)
    · obtain ⟨lo, hi, hleft, ha, hb, -⟩ := hnew hs
      obtain ⟨b', e', hr, hlo, hhi⟩ := h.within _ _ (.inr hleft)
      exact ⟨b', e', hr, by omega, by omega⟩
  · intro b e x hr hb he
    obtain ⟨lo, hi, hs, hx⟩ := h.fills _ _ _ hr hb he
    rcases hs with hs | hleft
    · exact ⟨lo, hi, by tauto, hx⟩
    · obtain ⟨a, c, hpart, hac⟩ := (hparts _ _ hleft).fills _ _ x ⟨rfl, rfl⟩ hx.1 hx.2
      exact ⟨a, c, by tauto, hac⟩
  · intro a c b e hs hr hb he
    obtain ⟨lo, hi, hleft, ha, hc, -⟩ := hnew (.inr hs)
    obtain ⟨b', e', hr', hlo, hhi⟩ := h.within _ _ (.inr hleft)
    have hbytes := hapart.proper _ _ (.inr hs)
    obtain ⟨hb', he'⟩ := h.separate.same hr hr' (x := a) (by omega) (by omega)
    subst hb' he'
    rcases (hparts _ _ hleft).closed _ _ _ _ ⟨hs, ha, hc⟩ ⟨rfl, rfl⟩ ha hc with hend | ⟨y, hnext⟩
    · subst hend
      rcases h.closed _ _ _ _ hleft hr hlo hhi with hend | ⟨y, hnext⟩
      · exact .inl hend
      · exact .inr ⟨y, .inl hnext⟩
    · exact .inr ⟨y, .inr hnext.1⟩

theorem one_left (h : Tiled runs held left) {lo hi b e : Nat} (hlt : lo < hi)
    (hall : ∀ x, lo ≤ x → x < hi → ∃ a c, left a c ∧ a ≤ x ∧ x < c)
    (hrun : runs b e) (hlo : b ≤ lo) (hhi : hi ≤ e) : ∃ a c, left a c ∧ a ≤ lo ∧ hi ≤ c := by
  obtain ⟨a, c, hleft, ha, hc⟩ := hall lo (Nat.le_refl _) hlt
  refine ⟨a, c, hleft, ha, ?_⟩
  by_contra hshort
  obtain ⟨b', e', hr', hb', he'⟩ := h.within _ _ (.inr hleft)
  obtain ⟨hb, he⟩ := h.separate.same hrun hr' (x := lo) (by omega) (by omega)
  subst hb he
  obtain ⟨a', c', hleft', ha', hc'⟩ := hall c (by omega) (by omega)
  rcases h.closed _ _ _ _ hleft hrun hb' he' with hend | ⟨y, hnext⟩
  · omega
  · have hbytes := h.tiles.proper _ _ (.inl hnext)
    obtain ⟨hsame, -⟩ := h.tiles.same (.inl hnext) (.inr hleft') (x := c) (by omega) (by omega)
    subst hsame
    exact h.kinds _ _ _ hnext hleft'

theorem restrict (h : Tiled runs held left) (hsub : ∀ b e, runs' b e → runs b e) :
    Tiled runs' (fun lo hi => held lo hi ∧ ∃ b e, runs' b e ∧ b ≤ lo ∧ hi ≤ e)
      (fun lo hi => left lo hi ∧ ∃ b e, runs' b e ∧ b ≤ lo ∧ hi ≤ e) where
  separate := h.separate.mono hsub
  tiles := h.tiles.mono (fun lo hi hs => by tauto)
  kinds _ _ _ hs hs' := h.kinds _ _ _ hs.1 hs'.1
  within lo hi hs := by tauto
  fills b e x hr hb he := by
    obtain ⟨lo, hi, hs, hx⟩ := h.fills _ _ x (hsub _ _ hr) hb he
    obtain ⟨b', e', hr', hlo, hhi⟩ := h.within _ _ hs
    obtain ⟨hb', he'⟩ := h.separate.same (hsub _ _ hr) hr' ⟨hb, he⟩ (by omega)
    subst hb' he'
    refine ⟨lo, hi, ?_, hx⟩
    rcases hs with hs | hs
    · exact .inl ⟨hs, b, e, hr, hlo, hhi⟩
    · exact .inr ⟨hs, b, e, hr, hlo, hhi⟩
  closed lo hi b e hs hr hb he := by
    rcases h.closed _ _ _ _ hs.1 (hsub _ _ hr) hb he with hend | ⟨hi', hnext⟩
    · exact .inl hend
    · have hbytes := h.tiles.proper _ _ (.inr hs.1)
      have hbytes' := h.tiles.proper _ _ (.inl hnext)
      by_cases hlast : hi = e
      · exact .inl hlast
      · obtain ⟨b', e', hr', hlo, hhi⟩ := h.within _ _ (.inl hnext)
        obtain ⟨hb', he'⟩ := h.separate.same (hsub _ _ hr) hr' (x := hi) (by omega) (by omega)
        subst hb' he'
        exact .inr ⟨hi', hnext, b, e, hr, hlo, hhi⟩

theorem congr (h : Tiled runs held left) (hruns : ∀ b e, runs' b e ↔ runs b e)
    (hheld : ∀ lo hi, held' lo hi ↔ held lo hi) (hleft : ∀ lo hi, left' lo hi ↔ left lo hi) :
    Tiled runs' held' left' := by
  have hr : runs' = runs := funext fun b => funext fun e => propext (hruns b e)
  have hh : held' = held := funext fun lo => funext fun hi => propext (hheld lo hi)
  have hl : left' = left := funext fun lo => funext fun hi => propext (hleft lo hi)
  rw [hr, hh, hl]
  exact h

end Tiled

/-! ## The spans of an ordered map -/

open Std (TreeMap)

section OfMap

variable {β : Type*} {len : β → Nat} {t : TreeMap Nat β}

/-- The spans a map from first bytes holds, each entry with a length. -/
def spansOf (len : β → Nat) (t : TreeMap Nat β) (lo hi : Nat) : Prop :=
  ∃ v, t[lo]? = some v ∧ hi = lo + len v

theorem spansOf_insert {k : Nat} (v : β) (hfresh : t[k]? = none) (lo hi : Nat) :
    spansOf len (t.insert k v) lo hi ↔ spansOf len t lo hi ∨ (lo = k ∧ hi = k + len v) := by
  unfold spansOf
  rw [TreeMap.getElem?_insert]
  by_cases hk : k = lo
  · subst hk
    simp [hfresh]
  · simp [hk, Ne.symm hk]

theorem spansOf_filter (f : Nat → β → Bool) (lo hi : Nat) :
    spansOf len (t.filter f) lo hi ↔ ∃ v, t[lo]? = some v ∧ f lo v = true ∧ hi = lo + len v := by
  unfold spansOf
  rw [TreeMap.getElem?_filter']
  constructor
  · rintro ⟨v, hv, rfl⟩
    obtain ⟨hv, hf⟩ := Option.filter_eq_some_iff.mp hv
    exact ⟨v, hv, hf, rfl⟩
  · rintro ⟨v, hv, hf, rfl⟩
    exact ⟨v, Option.filter_eq_some_iff.mpr ⟨hv, hf⟩, rfl⟩

/-- Entries with keys of their own put into a map. -/
theorem spansOf_insertMany {l : List (Nat × β)} (hdistinct : l.Pairwise (fun a b => a.1 ≠ b.1))
    (hfresh : ∀ e ∈ l, t[e.1]? = none) (lo hi : Nat) :
    spansOf len (t.insertMany l) lo hi ↔
      spansOf len t lo hi ∨ ∃ v, (lo, v) ∈ l ∧ hi = lo + len v := by
  unfold spansOf
  have hinsert : ∀ v, (lo, v) ∈ l → (t.insertMany l)[lo]? = some v := fun v hv =>
    TreeMap.getElem?_insertMany_list_of_mem (compare_eq_iff_eq.mpr rfl)
      (hdistinct.imp (fun {a b} h => by simpa using h)) hv
  by_cases hmem : ∃ v, (lo, v) ∈ l
  · obtain ⟨v, hv⟩ := hmem
    have hnone := hfresh _ hv
    dsimp only at hnone
    rw [hinsert v hv, hnone]
    constructor
    · rintro ⟨v', hv', rfl⟩
      cases hv'
      exact .inr ⟨v, hv, rfl⟩
    · rintro (⟨v', hv', -⟩ | ⟨v', hv', rfl⟩)
      · cases hv'
      · have hsame := (hinsert v hv).symm.trans (hinsert v' hv')
        exact ⟨v', hsame, rfl⟩
  · have hget : (t.insertMany l)[lo]? = t[lo]? := by
      apply TreeMap.getElem?_insertMany_list_of_contains_eq_false
      simpa using fun v hv => hmem ⟨v, hv⟩
    rw [hget]
    constructor
    · exact fun h => .inl h
    · rintro (h | ⟨v, hv, -⟩)
      · exact h
      · exact absurd ⟨v, hv⟩ hmem

/-- A filter that drops as many entries as none drops none. -/
theorem toList_filter_of_size {f : Nat → β → Bool} (h : (t.filter f).size = t.size) :
    (t.filter f).toList = t.toList ∧ ∀ k v, t[k]? = some v → f k v = true := by
  rw [← TreeMap.length_toList, ← TreeMap.length_toList, TreeMap.toList_filter] at h
  have hall := List.length_filter_eq_length_iff.mp h
  constructor
  · rw [TreeMap.toList_filter]
    exact List.filter_eq_self.mpr hall
  · intro k v hv
    exact hall (k, v) (TreeMap.mem_toList_iff_getElem?_eq_some.mpr hv)

end OfMap

end Orbistoun.Lib
