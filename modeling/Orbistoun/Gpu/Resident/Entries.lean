import Orbistoun.Gpu.Resident.Basic

/-! # What registry operations leave of an entry

Taking an image, letting others go and forgetting them leave the entries that remain as
they were. A dispatch that ran moves each entry it bound on by its own rule.
-/

namespace Orbistoun.Gpu

open Orbistoun.Lib
open Orbistoun.Lib.U64 (wrappingSub)

/-- `e'` is `e` but for when it was last used. -/
def Entry.Same (e' e : Entry) : Prop :=
  e'.span = e.span ∧ e'.generation = e.generation ∧ e'.state = e.state

namespace Registry

def Below (r' r : Registry) : Prop :=
  ∀ (key : Nat) (e' : Entry), r'.entries[key]? = some e' → ∃ e, r.entries[key]? = some e ∧ Entry.Same e' e

theorem below_refl (r : Registry) : Below r r := fun _ e' h => ⟨e', h, rfl, rfl, rfl⟩

theorem Below.trans {r₁ r₂ r₃ : Registry} (h : Below r₁ r₂) (h' : Below r₂ r₃) : Below r₁ r₃ := by
  intro key e₁ he₁
  obtain ⟨e₂, he₂, h12⟩ := h key e₁ he₁
  obtain ⟨e₃, he₃, h23⟩ := h' key e₂ he₂
  exact ⟨e₃, he₃, h12.1.trans h23.1, h12.2.1.trans h23.2.1, h12.2.2.trans h23.2.2⟩

theorem getElem?_setEntry (r : Registry) (key k : Nat) (e : Entry) :
    (r.setEntry key e).entries[k]? = if k = key then some e else r.entries[k]? := by
  simp only [setEntry, Std.TreeMap.getElem?_insert, Nat.compare_eq_eq]
  exact if_congr eq_comm rfl rfl

/-- What forgetting a key does: nothing where none but a deferred entry has it, and else the entry
is erased and reported. -/
theorem forget_cases (r : Registry) (key : Nat) :
    (r.forget key = r ∧ ∀ e, r.entries[key]? = some e → e.state = .deferred) ∨
    ∃ e, r.entries[key]? = some e ∧ e.state ≠ .deferred ∧ r.forget key = { r with
      entries := r.entries.erase key
      bytes := wrappingSub r.bytes e.bytes
      dropped := r.dropped ++ [key] } := by
  unfold forget
  cases he : r.entries[key]? with
  | none =>
      refine .inl ⟨rfl, ?_⟩
      intro e h
      cases h
  | some e =>
      by_cases hd : e.state = .deferred
      · refine .inl ⟨if_pos hd, ?_⟩
        intro e' h
        rw [← Option.some.inj h]
        exact hd
      · exact .inr ⟨e, rfl, hd, if_neg hd⟩

theorem getElem?_forget (r : Registry) (key k : Nat) :
    (r.forget key).entries[k]? =
      if k = key ∧ ∀ e, r.entries[key]? = some e → e.state ≠ .deferred then none
      else r.entries[k]? := by
  rcases forget_cases r key with ⟨hsame, hkeep⟩ | ⟨e, he, hd, hgone⟩
  · rw [hsame]
    split
    · next h =>
      cases hkey : r.entries[key]? with
      | none => rw [h.1, hkey]
      | some e => exact absurd (hkeep e hkey) (h.2 e hkey)
    · rfl
  · rw [hgone]
    simp only [Std.TreeMap.getElem?_erase, Nat.compare_eq_eq]
    by_cases hk : key = k
    · have hkeep : ∀ e', r.entries[key]? = some e' → e'.state ≠ .deferred := by
        intro e' he'
        rw [he, Option.some.injEq] at he'
        rwa [← he']
      rw [if_pos hk, if_pos ⟨hk.symm, hkeep⟩]
    · rw [if_neg hk, if_neg (fun h => hk h.1.symm)]

theorem forget_below (r : Registry) (key : Nat) : Below (r.forget key) r := by
  intro k e' he'
  rw [getElem?_forget] at he'
  split at he'
  · cases he'
  · exact ⟨e', he', rfl, rfl, rfl⟩

theorem forget_setEntry_below (r : Registry) (key : Nat) {e : Entry} (he : e.state ≠ .deferred) :
    Below ((r.setEntry key e).forget key) r := by
  intro k e' he'
  by_cases hk : k = key
  · have hgo : ∀ e', (r.setEntry key e).entries[key]? = some e' → e'.state ≠ .deferred := by
      intro e' he'
      rw [getElem?_setEntry, if_pos rfl] at he'
      rwa [← Option.some.inj he']
    rw [getElem?_forget, if_pos ⟨hk, hgo⟩] at he'
    cases he'
  · rw [getElem?_forget, if_neg (fun h => hk h.1), getElem?_setEntry, if_neg hk] at he'
    exact ⟨e', he', rfl, rfl, rfl⟩

theorem letOldestGoIn_below (walk : List (Nat × Entry) → List (Nat × Entry)) (r : Registry)
    (rounds : Nat) : Below (r.letOldestGoIn walk rounds) r := by
  induction rounds generalizing r with
  | zero => exact below_refl r
  | succ rounds ih =>
      rw [letOldestGoIn]
      split
      · split
        · exact below_refl r
        · next key _ => exact (ih _).trans (forget_below r key)
      · exact below_refl r

theorem forgetAll_below (walk : List (Nat × Entry) → List (Nat × Entry)) (r : Registry) :
    Below (r.forgetAll walk) r := by
  have hfold : ∀ (keys : List Nat) (r : Registry), Below (keys.foldl forget r) r := by
    intro keys
    induction keys with
    | nil => exact below_refl
    | cons key keys ih => exact fun r => (ih _).trans (forget_below r key)
  exact hfold _ r

@[simp] theorem forget_placed (r : Registry) (key : Nat) : (r.forget key).placed = r.placed := by
  rcases forget_cases r key with ⟨hsame, -⟩ | ⟨e, -, -, hgone⟩
  · rw [hsame]
  · rw [hgone]

theorem letOldestGoIn_placed (walk : List (Nat × Entry) → List (Nat × Entry)) (r : Registry)
    (rounds : Nat) : (r.letOldestGoIn walk rounds).placed = r.placed := by
  induction rounds generalizing r with
  | zero => rfl
  | succ rounds ih =>
      rw [letOldestGoIn]
      split
      · split
        · rfl
        · rw [ih, forget_placed]
      · rfl

theorem forgetAll_placed (walk : List (Nat × Entry) → List (Nat × Entry)) (r : Registry) :
    (r.forgetAll walk).placed = r.placed := by
  have hfold : ∀ (keys : List Nat) (r : Registry), (keys.foldl forget r).placed = r.placed := by
    intro keys
    induction keys with
    | nil => exact fun _ => rfl
    | cons key keys ih => exact fun r => (ih _).trans (forget_placed r key)
  exact hfold _ r

theorem below_used {r : Registry} {key : Nat} {e : Entry} (he : r.entries[key]? = some e)
    (placed : List Nat) (used : Nat) :
    Below ({ r with placed := placed }.setEntry key { e with used }) r := by
  intro k e' he'
  rw [getElem?_setEntry] at he'
  split at he'
  · next hk =>
      obtain rfl := Option.some.inj he'
      exact ⟨e, by rw [hk, he], rfl, rfl, rfl⟩
  · exact ⟨e', he', rfl, rfl, rfl⟩

/-! ## What taking and placing leave -/

section Places

variable {W : Type} {watch : WriteWatch W}

/-- `r'` at `w'` holds nothing that `r` at `w` did not, and forgot no place. -/
structure Lesser (watch : WriteWatch W) (r : Registry) (w : W) (r' : Registry) (w' : W) :
    Prop where
  below : Below r' r
  placed : ∀ k ∈ r.placed, k ∈ r'.placed
  quiet : watch.Quiet w w'

structure Taken (watch : WriteWatch W) (r : Registry) (w : W) (key : Nat) (u : Use) (r' : Registry)
    (e : Entry) : Prop where
  entry : r.entries[key]? = some e
  use_eq : u = ⟨key, e.generation, false, e.state = .deferred⟩
  unwritten : e.state ≠ .deferred →
    ∃ m, e.state = .kept m ∧ (watch.writtenSince w e.span m).1 = some false
  placed : key ∈ r'.placed
  entry' : r'.entries[key]? = some { e with used := r.dispatch }

theorem lesser_used {r : Registry} {w w' : W} {key : Nat} {e : Entry}
    (he : r.entries[key]? = some e) (hq : watch.Quiet w w') :
    Lesser watch r w
      ({ r with placed := key :: r.placed }.setEntry key { e with used := r.dispatch }) w' :=
  ⟨below_used he _ _, fun _ hk => List.mem_cons_of_mem _ hk, hq⟩

theorem getElem?_used (r : Registry) (key : Nat) (placed : List Nat) (e : Entry) :
    ({ r with placed }.setEntry key e).entries[key]? = some e := by
  rw [getElem?_setEntry, if_pos rfl]

theorem takeKept_spec (r : Registry) (w : W) (key : Nat) {used : Option Use} {r' : Registry} {w' : W}
    (h : r.takeKept watch.toWatchOps w key = (used, r', w')) :
    Lesser watch r w r' w' ∧ ∀ u, used = some u → ∃ e, Taken watch r w key u r' e := by
  have hstay : ∀ w₁, watch.Quiet w w₁ → (none, r, w₁) = (used, r', w') →
      Lesser watch r w r' w' ∧ ∀ u, used = some u → ∃ e, Taken watch r w key u r' e := by
    rintro w₁ hq ⟨⟩
    exact ⟨⟨below_refl r, fun _ hk => hk, hq⟩, fun u hu => by cases hu⟩
  unfold takeKept at h
  split at h
  · exact hstay w (WriteWatch.quiet_refl w) h
  · next e he =>
      split at h
      · next m hm =>
          simp only at h
          have hq : watch.Quiet w (watch.writtenSince w e.span m).2 := WriteWatch.quiet_ask _ _ _
          split at h
          · exact hstay _ hq h
          · next hfalse =>
              split at h
              · exact hstay _ hq h
              · cases h
                refine ⟨lesser_used he hq, fun u hu =>
                  ⟨e, he, ?_, fun _ => ?_, ?_, getElem?_used r key _ _⟩⟩
                · rw [← Option.some.inj hu, hm]
                  rfl
                · exact ⟨m, hm, not_not.mp hfalse⟩
                · exact List.mem_cons_self
      · exact hstay w (WriteWatch.quiet_refl w) h

theorem takeDeferred_spec (watch : WriteWatch W) (r : Registry) (w : W) (key : Nat) {used : Option Use} {r' : Registry}
    (h : r.takeDeferred key = (used, r')) :
    Lesser watch r w r' w ∧ ∀ u, used = some u → ∃ e, Taken watch r w key u r' e := by
  have hstay : (none, r) = (used, r') →
      Lesser watch r w r' w ∧ ∀ u, used = some u → ∃ e, Taken watch r w key u r' e := by
    rintro ⟨⟩
    exact ⟨⟨below_refl r, fun _ hk => hk, WriteWatch.quiet_refl w⟩, fun u hu => by cases hu⟩
  unfold takeDeferred at h
  split at h
  · exact hstay h
  · next e he =>
      split at h
      · exact hstay h
      · next hd =>
          rw [not_not] at hd
          split at h
          · exact hstay h
          · cases h
            refine ⟨lesser_used he (WriteWatch.quiet_refl w), fun u hu =>
              ⟨e, he, ?_, ?_, ?_, getElem?_used r key _ _⟩⟩
            · rw [← Option.some.inj hu, hd]
              rfl
            · exact fun hne => absurd hd hne
            · exact List.mem_cons_self

/-- A place read afresh: marked, entered, and others let go. -/
structure Fresh (watch : WriteWatch W) (r : Registry) (w : W) (key : Nat) (span : Span) (bytes : Nat)
    (u : Use) (r' : Registry) (w' : W) (r₁ : Registry) (w₁ : W) (m : Nat) : Prop where
  new : key ∉ r.placed
  quiet : watch.Quiet w w₁
  mark : watch.mark w₁ span = (some m, w')
  placed : r₁.placed = key :: r.placed
  entries : r₁.entries =
    (r.setEntry key ⟨span, bytes, r.generation + 1, .read m, r.dispatch⟩).entries
  below : Below r' r₁
  placed_eq : r'.placed = r₁.placed
  use_eq : u = ⟨key, r.generation + 1, true, false⟩

theorem takable_spec {w : W} {span : Span} {old : Option Entry} {taken : Bool} {w' : W}
    (h : takable watch.toWatchOps w span old = (taken, w')) :
    watch.Quiet w w' ∧ (taken = true → ∃ e, old = some e ∧ e.span = span ∧
      (e.state ≠ .deferred →
        ∃ m, e.state = .kept m ∧ (watch.writtenSince w e.span m).1 = some false)) := by
  unfold takable at h
  split at h
  · cases h
    exact ⟨WriteWatch.quiet_refl w, fun hf => by cases hf⟩
  · next e =>
      split at h
      · cases h
        exact ⟨WriteWatch.quiet_refl w, fun hf => by cases hf⟩
      · next hspan =>
          rw [not_not] at hspan
          split at h
          · next hd =>
              cases h
              exact ⟨WriteWatch.quiet_refl w, fun _ => ⟨e, rfl, hspan, fun hne => absurd hd hne⟩⟩
          · next m hm =>
              cases h
              refine ⟨WriteWatch.quiet_ask _ _ _, fun htrue => ⟨e, rfl, hspan, fun _ => ⟨m, hm, ?_⟩⟩⟩
              rw [hspan]
              simpa using htrue
          · cases h
            exact ⟨WriteWatch.quiet_refl w, fun hf => by cases hf⟩

theorem place_spec (walk : List (Nat × Entry) → List (Nat × Entry)) (r : Registry) (w : W)
    (key : Nat) (span : Span) (bytes : Nat) {used : Option Use} {r' : Registry} {w' : W}
    (h : r.place watch.toWatchOps walk w key span bytes = (used, r', w')) :
    (used = none ∧ Lesser watch r w r' w') ∨
    (∃ u e, used = some u ∧ Lesser watch r w r' w' ∧ Taken watch r w key u r' e ∧ e.span = span) ∨
    ∃ u r₁ w₁ m, used = some u ∧ Fresh watch r w key span bytes u r' w' r₁ w₁ m := by
  unfold place at h
  split at h
  · cases h
    exact Or.inl ⟨rfl, below_refl r, fun _ hk => hk, WriteWatch.quiet_refl w⟩
  · next hnew =>
      cases htake : takable watch.toWatchOps w span r.entries[key]? with
      | mk taken w₁ =>
          obtain ⟨hq, htaken⟩ := takable_spec htake
          simp only [htake] at h
          split at h
          · next e he =>
              cases h
              obtain ⟨e', he', hspan, hunwritten⟩ := htaken rfl
              rw [he] at he'
              obtain rfl := Option.some.inj he'
              exact Or.inr (Or.inl ⟨_, e, rfl, lesser_used he hq,
                ⟨he, rfl, hunwritten, List.mem_cons_self, getElem?_used r key _ _⟩, hspan⟩)
          · split at h
            · next hmark =>
                cases h
                have hq' : watch.Quiet w₁ (watch.mark w₁ span).2 := WriteWatch.quiet_mark _ _
                rw [hmark] at hq'
                refine Or.inl ⟨rfl, ?_, ?_, hq.trans hq'⟩
                · exact forget_below { r with placed := key :: r.placed } key
                · intro k hk
                  rw [forget_placed]
                  exact List.mem_cons_of_mem _ hk
            · next m w₂ hmark =>
                cases h
                refine Or.inr (Or.inr ⟨_, _, w₁, m, rfl, hnew, hq, hmark, ?_, ?_,
                  letOldestGoIn_below walk _ _, letOldestGoIn_placed walk _ _, rfl⟩)
                · rfl
                · rfl

end Places

/-! ## What a dispatch that ran leaves -/

section Ran

variable {W : Type} {watch : WriteWatch W}

/-- What becomes of the entry `e` of an image bound by a dispatch, asked at `w`. -/
inductive RanTo (watch : WriteWatch W) (w : W) (used : Use × Bool) (e : Entry) : Entry → Prop
  | deferred (h : e.state = .deferred ∨ (used.2 = true ∧ used.1.deferred = true)) :
      RanTo watch w used e { e with state := .deferred }
  | writing (since : Nat) (hstate : e.state = .read since ∨ e.state = .kept since)
      (hgen : e.generation = used.1.generation) (hstored : used.2 = true)
      (hdeferred : used.1.deferred = false)
      (hunwritten : (watch.writtenSince w e.span since).1 = some false) :
      RanTo watch w used e { e with state := .writing }
  | kept (since : Nat) (hstate : e.state = .read since ∨ e.state = .kept since)
      (hgen : e.generation = used.1.generation) (hstored : used.2 = false) :
      RanTo watch w used e { e with state := .kept since }

theorem RanTo.same {w : W} {used : Use × Bool} {e e' : Entry} (h : RanTo watch w used e e') :
    e'.span = e.span ∧ e'.generation = e.generation := by
  cases h <;> exact ⟨rfl, rfl⟩

/-- What one use makes of a registry: its own entry goes on as `RanTo` says or is gone, and
the others stay. -/
structure RanUse (watch : WriteWatch W) (r : Registry) (w : W) (used : Use × Bool)
    (rw' : Registry × W) : Prop where
  quiet : watch.Quiet w rw'.2
  others : ∀ k, k ≠ used.1.key → rw'.1.entries[k]? = r.entries[k]?
  own : ∀ e', rw'.1.entries[used.1.key]? = some e' →
    ∃ e, r.entries[used.1.key]? = some e ∧ RanTo watch w used e e'

theorem ranUse_set {r : Registry} {w w' : W} {used : Use × Bool} {e e' : Entry}
    (hq : watch.Quiet w w') (he : r.entries[used.1.key]? = some e)
    (hto : RanTo watch w used e e') : RanUse watch r w used (r.setEntry used.1.key e', w') := by
  refine ⟨hq, fun k hk => ?_, fun e'' he'' => ⟨e, he, ?_⟩⟩
  · rw [getElem?_setEntry, if_neg hk]
  · rw [getElem?_setEntry, if_pos rfl, Option.some.injEq] at he''
    exact he'' ▸ hto

/-- An entry that survives being forgotten is deferred. -/
theorem ranUse_forget {r : Registry} {w w' : W} (used : Use × Bool) (hq : watch.Quiet w w') :
    RanUse watch r w used (r.forget used.1.key, w') := by
  refine ⟨hq, fun k hk => ?_, fun e' he' => ?_⟩
  · rw [getElem?_forget, if_neg (fun h => hk h.1)]
  · rw [getElem?_forget] at he'
    split at he'
    · cases he'
    · next h =>
        have hd : e'.state = .deferred := by
          by_contra hne
          exact h ⟨rfl, fun e he => by rw [he', Option.some.injEq] at he; rwa [← he]⟩
        have hto : RanTo watch w used e' { e' with state := .deferred } := .deferred (.inl hd)
        have heq : { e' with state := .deferred } = e' := by rw [← hd]
        rw [heq] at hto
        exact ⟨e', he', hto⟩

theorem ranSince_spec {r : Registry} {w : W} {u : Use} {stored : Bool} {e : Entry} {since : Nat}
    (he : r.entries[u.key]? = some e) (hgen : e.generation = u.generation)
    (hdeferred : (stored && u.deferred) = false)
    (hstate : e.state = .read since ∨ e.state = .kept since) :
    RanUse watch r w (u, stored) (ranSince watch.toWatchOps w r u.key e stored since) := by
  cases stored with
  | false => exact ranUse_set (WriteWatch.quiet_refl w) he (.kept since hstate hgen rfl)
  | true =>
      simp only [ranSince, if_true]
      split
      · exact ranUse_forget (u, true) (WriteWatch.quiet_ask w _ _)
      · next hfalse =>
          exact ranUse_set (WriteWatch.quiet_ask w _ _) he
            (.writing since hstate hgen rfl (by simpa using hdeferred) (not_not.mp hfalse))

theorem ranUse_spec (ok : Bool) (r : Registry) (w : W) (used : Use × Bool) :
    RanUse watch r w used (ranUse watch.toWatchOps ok (r, w) used) := by
  obtain ⟨u, stored⟩ := used
  have hquiet : watch.Quiet w w := WriteWatch.quiet_refl w
  unfold ranUse
  simp only
  split
  · next hnone =>
      exact ⟨hquiet, fun k _ => rfl, fun e' he' => by rw [hnone] at he'; cases he'⟩
  · next e he =>
      split
      · exact ranUse_forget (u, stored) hquiet
      · next hgen =>
          rw [not_or, not_not] at hgen
          split
          · next hdef =>
              refine ranUse_set hquiet he (.deferred ?_)
              rcases hdef with hdef | hdef
              · exact Or.inr (by simpa using hdef)
              · exact Or.inl hdef
          · next hdef =>
              rw [not_or, Bool.not_eq_true] at hdef
              split
              · exact ranUse_forget (u, stored) hquiet
              · exact ranUse_forget (u, stored) hquiet
              · next since hstate => exact ranSince_spec he hgen.1 hdef.1 (Or.inl hstate)
              · next since hstate => exact ranSince_spec he hgen.1 hdef.1 (Or.inr hstate)

/-- After a dispatch, an entry none of its places names is as it was, and one that a place
names went on as `RanTo` says, asked at a moment in between. -/
theorem ran_spec (watch : WriteWatch W) (ok : Bool) {used : List (Use × Bool)}
    (hnodup : (used.map (fun u => u.1.key)).Nodup) (r : Registry) (w : W) :
    watch.Quiet w (used.foldl (ranUse watch.toWatchOps ok) (r, w)).2 ∧
      ∀ k e', (used.foldl (ranUse watch.toWatchOps ok) (r, w)).1.entries[k]? = some e' →
        (k ∉ used.map (fun u => u.1.key) ∧ r.entries[k]? = some e') ∨
        ∃ u ∈ used, u.1.key = k ∧ ∃ e w', r.entries[k]? = some e ∧ watch.Quiet w w' ∧
          RanTo watch w' u e e' := by
  induction used generalizing r w with
  | nil => exact ⟨WriteWatch.quiet_refl w, fun k e' he' => Or.inl ⟨by simp, he'⟩⟩
  | cons u used ih =>
      obtain ⟨hu, hnodup⟩ := List.nodup_cons.mp hnodup
      have hspec : RanUse watch r w u (ranUse watch.toWatchOps ok (r, w) u) := ranUse_spec ok r w u
      obtain ⟨hq, hothers, hown⟩ := hspec
      obtain ⟨ihq, ih⟩ := ih hnodup (ranUse watch.toWatchOps ok (r, w) u).1
        (ranUse watch.toWatchOps ok (r, w) u).2
      refine ⟨hq.trans ihq, fun k e' he' => ?_⟩
      rcases ih k e' he' with ⟨hk, hkeep⟩ | ⟨u', hu', hkey, e, w', he, hq', hto⟩
      · by_cases hkey : k = u.1.key
        · subst hkey
          obtain ⟨e, he, hto⟩ := hown e' hkeep
          exact Or.inr ⟨u, List.mem_cons_self, rfl, e, w, he, WriteWatch.quiet_refl w, hto⟩
        · rw [hothers k hkey] at hkeep
          exact Or.inl ⟨by simp [hkey, hk], hkeep⟩
      · have hne : k ≠ u.1.key := by
          rintro rfl
          exact hu (List.mem_map.mpr ⟨u', hu', hkey⟩)
        rw [hothers k hne] at he
        exact Or.inr ⟨u', List.mem_cons_of_mem _ hu', hkey, e, w', he, hq.trans hq', hto⟩

end Ran

end Registry

end Orbistoun.Gpu
