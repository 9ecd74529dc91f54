import Orbistoun.Gpu.Resident.Entries
import Orbistoun.Gpu.Resident.System

/-! # What is handed out as current is current

An image kept from a mark agrees with guest memory while nothing has written it since.
The invariant says so for every entry by its state, and for an image that waits for the
mark after its write-back it says so of the bytes a write could no longer be seen on.
-/

namespace Orbistoun.Gpu

open Orbistoun.Lib

/-- The place was given for these contents of the image. -/
def Given.Of (g : Given) (key : Nat) (e : Entry) : Prop :=
  g.use.key = key ∧ g.use.generation = e.generation

theorem Given.noteRead_use (key : Nat) (g : Given) : (g.noteRead key).use = g.use := by
  unfold noteRead
  split <;> rfl

theorem Given.noteRead_span (key : Nat) (g : Given) : (g.noteRead key).span = g.span := by
  unfold noteRead
  split <;> rfl

theorem Given.noteRead_of_ne {key : Nat} {g : Given}
    (h : ¬ (g.use.key = key ∧ g.use.deferred = false)) : g.noteRead key = g := if_neg h

def Phase.given : Phase → List Given
  | .preparing given => given
  | .ran _ _ => []

/-- The places whose bytes are read or written back over their span. -/
def Phase.places : Phase → List Given
  | .preparing given => given
  | .ran _ due => due

namespace System

variable {W β : Type} {watch : WriteWatch W} {s : System W β}

def Agree (f g : Nat → β) (span : Span) : Prop := ∀ a, span.Has a → f a = g a

/-- Guest memory still holds what was read of the image for the dispatch being prepared. -/
def ReadStill (s : System W β) (key : Nat) (e : Entry) : Prop :=
  ∀ g ∈ s.phase.given, g.Of key e → g.read = true → Agree (s.before key) s.mem e.span

structure Inv (watch : WriteWatch W) (s : System W β) : Prop where
  /-- Where a mark would hide a write, memory holds what the device does. -/
  absorbed : ∀ key a, s.Absorbs key a → s.device key a = s.mem a
  read : ∀ (key : Nat) (e : Entry) (m : Nat), s.registry.entries[key]? = some e →
    e.state = .read m → watch.Since s.watch e.span m (s.ReadStill key e) ∧
      ∀ g ∈ s.phase.given, g.Of key e → g.use.fresh = true
  kept : ∀ (key : Nat) (e : Entry) (m : Nat), s.registry.entries[key]? = some e →
    e.state = .kept m → watch.Since s.watch e.span m
      (Agree (s.device key) s.mem e.span ∧ s.ReadStill key e)
  deferred : ∀ (key : Nat) (e : Entry), s.registry.entries[key]? = some e → e.state = .deferred →
    ∀ g ∈ s.phase.given, g.Of key e → g.use.deferred = true ∧ g.read = false
  spans : ∀ g ∈ s.phase.places, ∀ e : Entry, s.registry.entries[g.use.key]? = some e →
    e.generation = g.use.generation → e.span = g.span
  placed : ∀ g ∈ s.phase.given, g.use.key ∈ s.registry.placed
  due : ∀ uses due, s.phase = .ran uses due → ∀ g ∈ due, ∀ u ∈ uses.storedUses,
    u.key = g.use.key → u.generation = g.use.generation

theorem inv_start (mem : Nat → β) (device before : Nat → Nat → β) (w : W) (budget : Nat) :
    Inv watch (start mem device before w budget) := by
  constructor <;> simp [start, Registry.new, Absorbs, Phase.given, Phase.places]

/-- Letting entries go, marking them used and asking the watch keep the invariant. -/
theorem Inv.below {r : Registry} {w : W} (h : Inv watch s) (hr : r.Below s.registry)
    (hplaced : ∀ k ∈ s.registry.placed, k ∈ r.placed) (hq : watch.Quiet s.watch w) :
    Inv watch { s with registry := r, watch := w } := by
  constructor
  · rintro key a ⟨e', he', hhas, habs⟩
    obtain ⟨e, he, hspan, hgen, hstate⟩ := hr key e' he'
    refine h.absorbed key a ⟨e, he, hspan ▸ hhas, ?_⟩
    rw [hstate, hgen] at habs
    exact habs
  · intro key e' m he' hm
    obtain ⟨e, he, hspan, hgen, hstate⟩ := hr key e' he'
    obtain ⟨hsince, hfresh⟩ := h.read key e m he (hstate ▸ hm)
    rw [hspan]
    refine ⟨(hsince.quiet hq).imp (fun hread => ?_), fun g hg hof => ?_⟩
    · intro g hg hof hgr
      rw [hspan]
      exact hread g hg ⟨hof.1, hof.2.trans hgen⟩ hgr
    · exact hfresh g hg ⟨hof.1, hof.2.trans hgen⟩
  · intro key e' m he' hm
    obtain ⟨e, he, hspan, hgen, hstate⟩ := hr key e' he'
    rw [hspan]
    refine ((h.kept key e m he (hstate ▸ hm)).quiet hq).imp (fun ⟨hagree, hread⟩ => ⟨hagree, ?_⟩)
    intro g hg hof hgr
    rw [hspan]
    exact hread g hg ⟨hof.1, hof.2.trans hgen⟩ hgr
  · intro key e' he' hd g hg hof
    obtain ⟨e, he, hspan, hgen, hstate⟩ := hr key e' he'
    exact h.deferred key e he (hstate ▸ hd) g hg ⟨hof.1, hof.2.trans hgen⟩
  · intro g hg e' he' hgen'
    obtain ⟨e, he, hspan, hgen, hstate⟩ := hr _ e' he'
    rw [hspan]
    exact h.spans g hg e he (hgen ▸ hgen')
  · exact fun g hg => hplaced _ (h.placed g hg)
  · exact h.due

/-- Writes that put what the device holds wherever a mark would hide them. -/
theorem Inv.writeOver (h : Inv watch s) (as : List Nat) (v : Nat → β)
    (hv : ∀ a ∈ as, ∀ key, s.Absorbs key a → v a = s.device key a) :
    Inv watch (s.writeOver watch.toWatchOps as v) := by
  -- Where the writes spare a span, memory is as it was there.
  have hmem : ∀ span : Span, (∀ a ∈ as, ¬ span.Has a) → ∀ a, span.Has a →
      (s.writeOver watch.toWatchOps as v).mem a = s.mem a := fun span hspare a ha =>
    if_neg (fun hin => hspare a hin ha)
  have hread : ∀ (key : Nat) (e : Entry), (∀ a ∈ as, ¬ e.span.Has a) → s.ReadStill key e →
      (s.writeOver watch.toWatchOps as v).ReadStill key e := by
    intro key e hspare hread g hg hof hgr a ha
    rw [hmem e.span hspare a ha]
    exact hread g hg hof hgr a ha
  constructor
  · intro key a habs
    by_cases hin : a ∈ as
    · exact (hv a hin key habs).symm.trans (if_pos hin).symm
    · exact (h.absorbed key a habs).trans (if_neg hin).symm
  · intro key e m he hm
    obtain ⟨hsince, hfresh⟩ := h.read key e m he hm
    exact ⟨hsince.writes as (hread key e), hfresh⟩
  · intro key e m he hm
    refine (h.kept key e m he hm).writes as (fun hspare ⟨hagree, hstill⟩ => ⟨?_, hread key e hspare hstill⟩)
    intro a ha
    rw [hmem e.span hspare a ha]
    exact hagree a ha
  · exact h.deferred
  · exact h.spans
  · exact h.placed
  · exact h.due

/-- While a dispatch is prepared, a mark is waited for by a carried image only. -/
theorem Absorbs.of_preparing {s' : System W β} {given : List Given} {key a : Nat}
    (h : s'.Absorbs key a) (hphase : s'.phase = .preparing given)
    (hentries : s'.registry.entries = s.registry.entries) (hcarrying : s'.carrying = s.carrying) :
    s.Absorbs key a := by
  obtain ⟨e, he, hhas, habs⟩ := h
  refine ⟨e, hentries ▸ he, hhas, ?_⟩
  cases hstate : e.state with
  | writing =>
      rw [hstate] at habs
      obtain ⟨uses, due, hran, -⟩ := habs
      rw [hphase] at hran
      cases hran
  | deferred => simpa [hstate, hcarrying] using habs
  | read m => simp [hstate] at habs
  | kept m => simp [hstate] at habs

/-- Starting over with nothing given and nothing due. -/
theorem Inv.idle {r : Registry} (h : Inv watch s) (hr : r.entries = s.registry.entries) :
    Inv watch { s with registry := r, phase := .preparing [] } := by
  constructor
  · exact fun key a habs => h.absorbed key a (habs.of_preparing rfl hr rfl)
  · intro key e m he hm
    rw [hr] at he
    refine ⟨(h.read key e m he hm).1.imp (fun _ => ?_), ?_⟩
    · exact fun g hg => absurd hg (by simp [Phase.given])
    · exact fun g hg => absurd hg (by simp [Phase.given])
  · intro key e m he hm
    rw [hr] at he
    refine (h.kept key e m he hm).imp (fun ⟨hagree, _⟩ => ⟨hagree, ?_⟩)
    exact fun g hg => absurd hg (by simp [Phase.given])
  · exact fun key e _ _ g hg => absurd hg (by simp [Phase.given])
  · exact fun g hg => absurd hg (by simp [Phase.places])
  · exact fun g hg => absurd hg (by simp [Phase.given])
  · exact fun uses due hphase => by cases hphase

/-! ## Places -/

section Places

variable {given : List Given} {u : Use} {span : Span}

theorem Inv.give (h : Inv watch s) (hphase : s.phase = .preparing given)
    (hplaced : u.key ∈ s.registry.placed)
    (hu : ∀ e : Entry, s.registry.entries[u.key]? = some e → e.generation = u.generation →
      e.span = span ∧ (∀ m, e.state = .read m → u.fresh = true) ∧
        (e.state = .deferred → u.deferred = true)) :
    Inv watch { s with phase := .preparing (⟨u, span, false⟩ :: given) } := by
  have hgiven : s.phase.given = given := by rw [hphase]; rfl
  have hplaces : s.phase.places = given := by rw [hphase]; rfl
  have hstill : ∀ (key : Nat) (e : Entry), s.ReadStill key e →
      { s with phase := .preparing (⟨u, span, false⟩ :: given) }.ReadStill key e := by
    intro key e hread g hg hof hgr
    rcases List.mem_cons.mp hg with rfl | hg
    · cases hgr
    · exact hread g (hgiven ▸ hg) hof hgr
  constructor
  · exact fun key a habs => h.absorbed key a (habs.of_preparing rfl rfl rfl)
  · intro key e m he hm
    obtain ⟨hsince, hfresh⟩ := h.read key e m he hm
    refine ⟨hsince.imp (hstill key e), fun g hg hof => ?_⟩
    rcases List.mem_cons.mp hg with rfl | hg
    · obtain ⟨rfl, hgen⟩ := hof
      exact (hu e he hgen.symm).2.1 m hm
    · exact hfresh g (hgiven ▸ hg) hof
  · intro key e m he hm
    exact (h.kept key e m he hm).imp (fun ⟨hagree, hread⟩ => ⟨hagree, hstill key e hread⟩)
  · intro key e he hd g hg hof
    rcases List.mem_cons.mp hg with rfl | hg
    · obtain ⟨rfl, hgen⟩ := hof
      exact ⟨(hu e he hgen.symm).2.2 hd, rfl⟩
    · exact h.deferred key e he hd g (hgiven ▸ hg) hof
  · intro g hg e he hgen
    rcases List.mem_cons.mp hg with rfl | hg
    · exact (hu e he hgen).1
    · exact h.spans g (hplaces ▸ hg) e he hgen
  · intro g hg
    rcases List.mem_cons.mp hg with rfl | hg
    · exact hplaced
    · exact h.placed g (hgiven ▸ hg)
  · exact fun uses due hran => by cases hran

/-- An image read afresh, from a mark taken now. -/
theorem Inv.insertRead {r : Registry} {w : W} {key m bytes generation dispatch : Nat}
    (h : Inv watch s) (hphase : s.phase = .preparing given) (hnew : key ∉ s.registry.placed)
    (hplaced : r.placed = key :: s.registry.placed)
    (hentries : r.entries =
      (s.registry.setEntry key ⟨span, bytes, generation, .read m, dispatch⟩).entries)
    (hmark : watch.mark s.watch span = (some m, w)) :
    Inv watch { s with registry := r, watch := w } := by
  have hgiven : ∀ g ∈ s.phase.given, g.use.key ≠ key := fun g hg heq =>
    hnew (heq ▸ h.placed g hg)
  have hplaces : s.phase.places = s.phase.given := by rw [hphase]; rfl
  have hw : watch.Quiet s.watch w := by
    have hq : watch.Quiet s.watch (watch.mark s.watch span).2 := WriteWatch.quiet_mark _ _
    rwa [hmark] at hq
  -- An entry is the one read now, or one there was.
  have hget : ∀ (k : Nat) (e : Entry), r.entries[k]? = some e →
      (k = key ∧ e = ⟨span, bytes, generation, .read m, dispatch⟩) ∨
        (k ≠ key ∧ s.registry.entries[k]? = some e) := by
    intro k e he
    rw [hentries, Registry.getElem?_setEntry] at he
    split at he
    · next hk => exact Or.inl ⟨hk, (Option.some.inj he).symm⟩
    · next hk => exact Or.inr ⟨hk, he⟩
  constructor
  · rintro k a ⟨e, he, hhas, habs⟩
    rcases hget k e he with ⟨rfl, rfl⟩ | ⟨-, he⟩
    · exact absurd habs (by simp)
    · exact h.absorbed k a ⟨e, he, hhas, habs⟩
  · intro k e m' he hm
    rcases hget k e he with ⟨rfl, rfl⟩ | ⟨-, he⟩
    · obtain rfl : m = m' := by simpa using hm
      refine ⟨WriteWatch.since_of_mark hmark ?_, fun g hg hof => absurd hof.1 (hgiven g hg)⟩
      exact fun g hg hof => absurd hof.1 (hgiven g hg)
    · obtain ⟨hsince, hfresh⟩ := h.read k e m' he hm
      exact ⟨hsince.quiet hw, hfresh⟩
  · intro k e m' he hm
    rcases hget k e he with ⟨rfl, rfl⟩ | ⟨-, he⟩
    · cases hm
    · exact (h.kept k e m' he hm).quiet hw
  · intro k e he hd
    rcases hget k e he with ⟨rfl, rfl⟩ | ⟨-, he⟩
    · cases hd
    · exact h.deferred k e he hd
  · intro g hg e he hgen
    rcases hget _ e he with ⟨hk, rfl⟩ | ⟨-, he⟩
    · exact absurd hk (hgiven g (hplaces ▸ hg))
    · exact h.spans g hg e he hgen
  · intro g hg
    simp only [hplaced]
    exact List.mem_cons_of_mem _ (h.placed g hg)
  · exact h.due

/-- A place taken where the image is: the invariant stays, and unless it is deferred the
device holds what guest memory does. -/
theorem Inv.take {r : Registry} {w : W} {key : Nat} {e : Entry} (h : Inv watch s)
    (hphase : s.phase = .preparing given) (hl : Registry.Lesser watch s.registry s.watch r w)
    (ht : Registry.Taken watch s.registry s.watch key u r e) :
    let s' := { s with registry := r, watch := w, phase := .preparing (⟨u, e.span, false⟩ :: given) }
    Inv watch s' ∧ (u.deferred = false → s'.Current u.key) := by
  intro s'
  have hkey : u.key = key := by rw [ht.use_eq]
  have hbelow := h.below hl.below hl.placed hl.quiet
  refine ⟨hbelow.give hphase (hkey ▸ ht.placed) ?_, fun hdef => ?_⟩
  · intro e' he' _
    rw [hkey] at he'
    obtain rfl := Option.some.inj (ht.entry'.symm.trans he')
    refine ⟨rfl, fun m hm => ?_, fun hd => ?_⟩
    · obtain ⟨m', hm', -⟩ := ht.unwritten (by rw [hm]; simp)
      rw [hm] at hm'
      cases hm'
    · simpa [ht.use_eq] using hd
  · have hne : e.state ≠ .deferred := by simpa [ht.use_eq] using hdef
    obtain ⟨m, hm, hfalse⟩ := ht.unwritten hne
    have hagree := ((h.kept key e m ht.entry hm).of_unwritten hfalse).1
    rw [hkey]
    exact ⟨_, ht.entry', hagree⟩

/-- A place read afresh. -/
theorem Inv.fresh {r r₁ : Registry} {w w₁ : W} {key bytes m : Nat} (h : Inv watch s)
    (hphase : s.phase = .preparing given)
    (hf : Registry.Fresh watch s.registry s.watch key span bytes u r w r₁ w₁ m) :
    Inv watch { s with registry := r, watch := w, phase := .preparing (⟨u, span, false⟩ :: given) } := by
  have hquiet := h.below (Registry.below_refl _) (fun _ hk => hk) hf.quiet
  have hins := hquiet.insertRead hphase hf.new hf.placed hf.entries hf.mark
  have hbelow := hins.below hf.below (fun k hk => by rwa [hf.placed_eq]) (WriteWatch.quiet_refl w)
  have hkey : u.key = key := by rw [hf.use_eq]
  refine hbelow.give hphase ?_ (fun e he _ => ?_)
  · show u.key ∈ r.placed
    rw [hf.placed_eq, hf.placed, hkey]
    exact List.mem_cons_self
  · obtain ⟨e₁, he₁, hspan, -, hstate⟩ := hf.below u.key e he
    rw [hf.entries, hkey, Registry.getElem?_setEntry, if_pos rfl] at he₁
    obtain rfl := Option.some.inj he₁
    refine ⟨hspan, fun _ _ => by rw [hf.use_eq], fun hd => ?_⟩
    rw [hstate] at hd
    cases hd

theorem Inv.readBytes (h : Inv watch s) (hphase : s.phase = .preparing given) (key : Nat) :
    Inv watch { s with
      before := Function.update s.before key s.mem
      phase := .preparing (given.map (Given.noteRead key)) } := by
  have hgiven : s.phase.given = given := by rw [hphase]; rfl
  have hplaces : s.phase.places = given := by rw [hphase]; rfl
  have hof : ∀ (g : Given) (k : Nat) (e : Entry), (g.noteRead key).Of k e ↔ g.Of k e := fun g k e => by
    rw [Given.Of, Given.Of, Given.noteRead_use]
  have hstill : ∀ (k : Nat) (e : Entry), s.ReadStill k e →
      { s with
        before := Function.update s.before key s.mem
        phase := .preparing (given.map (Given.noteRead key)) }.ReadStill k e := by
    intro k e hread g hg hgof hgr
    obtain ⟨g₀, hg₀, rfl⟩ := List.mem_map.mp hg
    have hgof := (hof g₀ k e).mp hgof
    by_cases hk : k = key
    · subst hk
      intro a _
      show Function.update s.before k s.mem k a = s.mem a
      rw [Function.update_self]
    · rw [Given.noteRead_of_ne (fun hc => hk (hgof.1.symm.trans hc.1))] at hgr
      show Agree (Function.update s.before key s.mem k) s.mem e.span
      rw [Function.update_of_ne hk]
      exact hread g₀ (hgiven ▸ hg₀) hgof hgr
  constructor
  · exact fun k a habs => h.absorbed k a (habs.of_preparing rfl rfl rfl)
  · intro k e m he hm
    obtain ⟨hsince, hfresh⟩ := h.read k e m he hm
    refine ⟨hsince.imp (hstill k e), fun g hg hgof => ?_⟩
    obtain ⟨g₀, hg₀, rfl⟩ := List.mem_map.mp hg
    rw [Given.noteRead_use]
    exact hfresh g₀ (hgiven ▸ hg₀) ((hof g₀ k e).mp hgof)
  · intro k e m he hm
    exact (h.kept k e m he hm).imp (fun ⟨hagree, hread⟩ => ⟨hagree, hstill k e hread⟩)
  · intro k e he hd g hg hgof
    obtain ⟨g₀, hg₀, rfl⟩ := List.mem_map.mp hg
    obtain ⟨hgd, hgr⟩ := h.deferred k e he hd g₀ (hgiven ▸ hg₀) ((hof g₀ k e).mp hgof)
    rw [Given.noteRead_of_ne (by simp [hgd])]
    exact ⟨hgd, hgr⟩
  · intro g hg e he hgen
    obtain ⟨g₀, hg₀, rfl⟩ := List.mem_map.mp hg
    rw [Given.noteRead_span]
    rw [Given.noteRead_use] at he hgen
    exact h.spans g₀ (hplaces ▸ hg₀) e he hgen
  · intro g hg
    obtain ⟨g₀, hg₀, rfl⟩ := List.mem_map.mp hg
    rw [Given.noteRead_use]
    exact h.placed g₀ (hgiven ▸ hg₀)
  · exact fun uses due hran => by cases hran

end Places

/-! ## Write-backs -/

/-- An image marked while memory holds what the device does is kept from the mark. -/
theorem Inv.keep {w : W} {key m : Nat} {e : Entry} (h : Inv watch s)
    (he : s.registry.entries[key]? = some e) (hmark : watch.mark s.watch e.span = (some m, w))
    (hagree : Agree (s.device key) s.mem e.span) (hread : s.ReadStill key e) :
    Inv watch { s with
      registry := s.registry.setEntry key { e with state := .kept m }, watch := w } := by
  have hw : watch.Quiet s.watch w := by
    have hq : watch.Quiet s.watch (watch.mark s.watch e.span).2 := WriteWatch.quiet_mark _ _
    rwa [hmark] at hq
  have hget : ∀ (k : Nat) (e' : Entry),
      (s.registry.setEntry key { e with state := .kept m }).entries[k]? = some e' →
      (k = key ∧ e' = { e with state := .kept m }) ∨ s.registry.entries[k]? = some e' := by
    intro k e' he'
    rw [Registry.getElem?_setEntry] at he'
    split at he'
    · next hk => exact Or.inl ⟨hk, (Option.some.inj he').symm⟩
    · exact Or.inr he'
  constructor
  · rintro k a ⟨e', he', hhas, habs⟩
    rcases hget k e' he' with ⟨rfl, rfl⟩ | he'
    · exact absurd habs (by simp)
    · exact h.absorbed k a ⟨e', he', hhas, habs⟩
  · intro k e' m' he' hm
    rcases hget k e' he' with ⟨rfl, rfl⟩ | he'
    · cases hm
    · obtain ⟨hsince, hfresh⟩ := h.read k e' m' he' hm
      exact ⟨hsince.quiet hw, hfresh⟩
  · intro k e' m' he' hm
    rcases hget k e' he' with ⟨rfl, rfl⟩ | he'
    · obtain rfl : m = m' := by simpa using hm
      exact WriteWatch.since_of_mark hmark ⟨hagree, hread⟩
    · exact (h.kept k e' m' he' hm).quiet hw
  · intro k e' he' hd
    rcases hget k e' he' with ⟨rfl, rfl⟩ | he'
    · cases hd
    · exact h.deferred k e' he' hd
  · intro g hg e' he' hgen
    rcases hget _ e' he' with ⟨hk, rfl⟩ | he'
    · exact h.spans g hg e (hk ▸ he) hgen
    · exact h.spans g hg e' he' hgen
  · exact h.placed
  · exact h.due

/-- One stored image of a dispatch whose write-back is made. -/
theorem Inv.writtenBackUse {uses : Uses} {u : Use} (h : Inv watch s)
    (hphase : s.phase = .ran uses []) (hu : u ∈ uses.storedUses) :
    Inv watch { s with
      registry := (Registry.writtenBackUse watch.toWatchOps (s.registry, s.watch) u).1
      watch := (Registry.writtenBackUse watch.toWatchOps (s.registry, s.watch) u).2 } := by
  unfold Registry.writtenBackUse
  simp only
  split
  · exact h
  · next e he =>
      split
      · exact h
      · next hwriting =>
          rw [not_or, not_not, not_not] at hwriting
          split
          · next m w hmark =>
              refine h.keep he hmark (fun a ha => h.absorbed u.key a ⟨e, he, ha, ?_⟩) ?_
              · rw [hwriting.2]
                exact ⟨uses, [], hphase, ⟨u, hu, rfl, hwriting.1.symm⟩, Or.inl (by simp)⟩
              · exact fun g hg => absurd hg (by simp [hphase, Phase.given])
          · next w hmark =>
              have hq : watch.Quiet s.watch (watch.mark s.watch e.span).2 :=
                WriteWatch.quiet_mark _ _
              rw [hmark] at hq
              refine h.below (Registry.forget_below _ _) (fun k hk => ?_) hq
              rwa [Registry.forget_placed]

theorem Inv.writtenBack {uses : Uses} (h : Inv watch s) (hphase : s.phase = .ran uses []) :
    Inv watch { s with
      registry := (s.registry.writtenBack watch.toWatchOps s.watch uses).1
      watch := (s.registry.writtenBack watch.toWatchOps s.watch uses).2 } := by
  have hfold : ∀ (us : List Use) (s : System W β), (∀ u ∈ us, u ∈ uses.storedUses) →
      Inv watch s → s.phase = .ran uses [] →
      Inv watch { s with
        registry := (us.foldl (Registry.writtenBackUse watch.toWatchOps) (s.registry, s.watch)).1
        watch := (us.foldl (Registry.writtenBackUse watch.toWatchOps) (s.registry, s.watch)).2 } := by
    intro us
    induction us with
    | nil => exact fun s _ h _ => h
    | cons u us ih =>
        intro s hus h hphase
        exact ih _ (fun v hv => hus v (List.mem_cons_of_mem _ hv))
          (h.writtenBackUse hphase (hus u List.mem_cons_self)) hphase
  exact hfold _ s (fun _ hu => hu) h hphase

theorem Inv.uncarry (h : Inv watch s) : Inv watch { s with carrying := none } := by
  refine ⟨?_, h.read, h.kept, h.deferred, h.spans, h.placed, h.due⟩
  rintro key a ⟨e, he, hhas, habs⟩
  refine h.absorbed key a ⟨e, he, hhas, ?_⟩
  cases hstate : e.state with
  | deferred => simp [hstate] at habs
  | writing => simpa [hstate] using habs
  | read m => simp [hstate] at habs
  | kept m => simp [hstate] at habs

/-- The registry is told that a deferred write-back is made. -/
theorem Inv.carriedOut {key generation : Nat} (h : Inv watch s)
    (hcarrying : s.carrying = some (key, generation)) :
    Inv watch { s with
      registry := (s.registry.carriedOut watch.toWatchOps s.watch key generation).1
      watch := (s.registry.carriedOut watch.toWatchOps s.watch key generation).2
      carrying := none } := by
  unfold Registry.carriedOut
  split
  · exact h.uncarry
  · next e he =>
      split
      · exact h.uncarry
      · next hdeferred =>
          rw [not_or, not_not, not_not] at hdeferred
          split
          · next m w hmark =>
              refine Inv.uncarry (h.keep he hmark (fun a ha => h.absorbed key a ⟨e, he, ha, ?_⟩) ?_)
              · rw [hdeferred.2]
                exact ⟨generation, hcarrying⟩
              · intro g hg hof hgr
                rw [(h.deferred key e he hdeferred.2 g hg hof).2] at hgr
                cases hgr
          · next w hmark =>
              have hq : watch.Quiet s.watch (watch.mark s.watch e.span).2 :=
                WriteWatch.quiet_mark _ _
              rw [hmark] at hq
              refine Inv.uncarry (h.below (Registry.forget_setEntry_below _ key (by simp)) ?_ hq)
              intro k hk
              rwa [Registry.forget_placed]

theorem Inv.writeBack [DecidableEq β] {uses : Uses} {g : Given} {due : List Given}
    (h : Inv watch s) (hphase : s.phase = .ran uses (g :: due))
    (hspares : ∀ a ∈ s.changed g.use.key g.span, ∀ key, key ≠ g.use.key → ¬ s.Absorbs key a) :
    Inv watch { s.writeOver watch.toWatchOps (s.changed g.use.key g.span) (s.device g.use.key) with
      phase := .ran uses due } := by
  have hw := h.writeOver (s.changed g.use.key g.span) (s.device g.use.key) (fun a ha key habs => by
    by_cases hkey : key = g.use.key
    · rw [hkey]
    · exact absurd habs (hspares a ha key hkey))
  constructor
  · rintro key a ⟨e, he, hhas, habs⟩
    cases hstate : e.state with
    | read m => simp [hstate] at habs
    | kept m => simp [hstate] at habs
    | deferred => exact hw.absorbed key a ⟨e, he, hhas, by simpa [hstate] using habs⟩
    | writing =>
        rw [hstate] at habs
        obtain ⟨uses', due', hran, ⟨u, hu, hukey, hugen⟩, hdone⟩ := habs
        obtain ⟨rfl, rfl⟩ : uses = uses' ∧ due = due' := by simpa using hran
        by_cases hchanged : s.device key a = s.before key a
        · refine hw.absorbed key a ⟨e, he, hhas, ?_⟩
          rw [hstate]
          exact ⟨uses, g :: due, hphase, ⟨u, hu, hukey, hugen⟩, Or.inr hchanged⟩
        · have hnotdue := hdone.resolve_right hchanged
          by_cases hkey : key = g.use.key
          · -- Its own bytes that changed are in memory now.
            subst hkey
            have hgen := h.due uses _ hphase g List.mem_cons_self u hu hukey
            have hspan : e.span = g.span := h.spans g (by rw [hphase]; exact List.mem_cons_self) e he
              (hugen.symm.trans hgen)
            have hin : a ∈ s.changed g.use.key g.span :=
              List.mem_filter.mpr ⟨Span.mem_addresses.mpr (hspan ▸ hhas), by simpa using hchanged⟩
            exact (if_pos hin).symm
          · refine hw.absorbed key a ⟨e, he, hhas, ?_⟩
            rw [hstate]
            refine ⟨uses, g :: due, hphase, ⟨u, hu, hukey, hugen⟩, Or.inl (fun g' hg' => ?_)⟩
            rcases List.mem_cons.mp hg' with rfl | hg'
            · exact fun heq => hkey heq.symm
            · exact hnotdue g' hg'
  · intro key e m he hm
    obtain ⟨hsince, -⟩ := hw.read key e m he hm
    exact ⟨hsince.imp (fun _ g' hg' => by cases hg'), fun g' hg' => by cases hg'⟩
  · intro key e m he hm
    exact (hw.kept key e m he hm).imp (fun ⟨hagree, _⟩ => ⟨hagree, fun g' hg' => by cases hg'⟩)
  · exact fun key e _ _ g' hg' => by cases hg'
  · intro g' hg' e he hgen
    exact h.spans g' (by rw [hphase]; exact List.mem_cons_of_mem _ hg') e he hgen
  · exact fun g' hg' => by cases hg'
  · intro uses' due' hran g' hg' u hu hkey
    obtain ⟨rfl, rfl⟩ : uses = uses' ∧ due = due' := by simpa using hran
    exact h.due uses _ hphase g' (List.mem_cons_of_mem _ hg') u hu hkey

/-- A deferred image is written over memory as memory is now. -/
theorem Inv.carryOut [DecidableEq β] {key generation : Nat} {e : Entry} (h : Inv watch s)
    (he : s.registry.entries[key]? = some e)
    (hspares : ∀ a, e.span.Has a → ∀ key', key' ≠ key → ¬ s.Absorbs key' a) :
    Inv watch { s.writeOver watch.toWatchOps
        (e.span.addresses.filter (fun a => s.mem a ≠ s.device key a)) (s.device key) with
      carrying := some (key, generation) } := by
  set as := e.span.addresses.filter (fun a => s.mem a ≠ s.device key a) with has
  have hw := h.writeOver as (s.device key) (fun a ha key' habs => by
    by_cases hkey : key' = key
    · rw [hkey]
    · have hspan := Span.mem_addresses.mp (List.mem_filter.mp ha).1
      exact absurd habs (hspares a hspan key' hkey))
  refine ⟨?_, hw.read, hw.kept, hw.deferred, hw.spans, hw.placed, hw.due⟩
  rintro k a ⟨e', he', hhas, habs⟩
  cases hstate : e'.state with
  | read m => simp [hstate] at habs
  | kept m => simp [hstate] at habs
  | writing => exact hw.absorbed k a ⟨e', he', hhas, by simpa [hstate] using habs⟩
  | deferred =>
      rw [hstate] at habs
      obtain ⟨gen, hcar⟩ := habs
      obtain ⟨rfl, -⟩ : key = k ∧ generation = gen := by simpa using hcar
      obtain rfl := Option.some.inj (he.symm.trans he')
      show s.device key a = if a ∈ as then s.device key a else s.mem a
      by_cases hin : a ∈ as
      · rw [if_pos hin]
      · rw [if_neg hin]
        by_contra hne
        exact hin (List.mem_filter.mpr ⟨Span.mem_addresses.mpr hhas, by simpa using Ne.symm hne⟩)

/-! ## Dispatches -/

section Dispatch

variable {given : List Given} {uses : Uses} {stores : Nat → Nat → β}

/-- Each image is bound once. -/
theorem CanExecute.eq_of_key (hcan : CanExecute given uses) {used used' : Use × Bool}
    (h : used ∈ uses.each) (h' : used' ∈ uses.each) (hkey : used.1.key = used'.1.key) :
    used = used' :=
  List.inj_on_of_nodup_map hcan.2 h h' hkey

theorem mem_each_of_stored {u : Use} (h : u ∈ uses.storedUses) : (u, true) ∈ uses.each :=
  List.mem_append_right _ (List.mem_map_of_mem h)

theorem mem_stored_of_each {u : Use} (h : (u, true) ∈ uses.each) : u ∈ uses.storedUses := by
  rcases List.mem_append.mp h with h | h
  · obtain ⟨v, -, hv⟩ := List.mem_map.mp h
    cases congrArg Prod.snd hv
  · obtain ⟨v, hv, heq⟩ := List.mem_map.mp h
    obtain rfl : v = u := congrArg Prod.fst heq
    exact hv

theorem mem_dueAfter {g : Given} : g ∈ dueAfter given uses ↔
    g ∈ given ∧ ∃ u ∈ uses.storedUses, u.key = g.use.key ∧ u.generation = g.use.generation ∧
      u.deferred = false := by
  simp [dueAfter, List.mem_filter]

/-- An image no place names is as the device held it. -/
theorem executed_of_unbound {key : Nat} (hkey : key ∉ uses.each.map (fun used => used.1.key)) :
    s.executed uses stores key = s.device key := by
  have hstored : key ∉ uses.storedUses.map (·.key) := fun h => by
    obtain ⟨u, hu, rfl⟩ := List.mem_map.mp h
    exact hkey (List.mem_map.mpr ⟨(u, true), mem_each_of_stored hu, rfl⟩)
  have hfresh : uses.each.any (fun used => used.1.key = key ∧ used.1.fresh) = false := by
    rw [List.any_eq_false]
    intro used hused hc
    simp only [decide_eq_true_eq] at hc
    exact hkey (List.mem_map.mpr ⟨used, hused, hc.1⟩)
  rw [executed, if_neg hstored, hfresh]
  rfl

/-- An image only fetched from holds the texels read for it, or what it held. -/
theorem executed_of_fetched (hcan : CanExecute given uses) {u : Use}
    (hu : (u, false) ∈ uses.each) :
    s.executed uses stores u.key = if u.fresh then s.before u.key else s.device u.key := by
  have hstored : u.key ∉ uses.storedUses.map (·.key) := fun h => by
    obtain ⟨v, hv, hkey⟩ := List.mem_map.mp h
    have heq := hcan.eq_of_key (mem_each_of_stored hv) hu hkey
    cases congrArg Prod.snd heq
  have hfresh : uses.each.any (fun used => used.1.key = u.key ∧ used.1.fresh) = u.fresh := by
    cases hf : u.fresh with
    | true => exact List.any_eq_true.mpr ⟨(u, false), hu, by simp [hf]⟩
    | false =>
        rw [List.any_eq_false]
        intro used hused hc
        simp only [decide_eq_true_eq] at hc
        have heq := hcan.eq_of_key hused hu hc.1
        rw [heq, hf] at hc
        exact absurd hc.2 (by simp)
  rw [executed, if_neg hstored, hfresh]

/-- What memory held when the image was read for the dispatch is what it holds, while the
image is unwritten since its mark. -/
theorem Inv.since_read (h : Inv watch s) (hphase : s.phase = .preparing given) {key m : Nat}
    {e : Entry} (he : s.registry.entries[key]? = some e)
    (hstate : e.state = .read m ∨ e.state = .kept m) {g : Given} (hg : g ∈ given)
    (hof : g.Of key e) (hread : g.read = true) :
    watch.Since s.watch e.span m (Agree (s.before key) s.mem e.span) := by
  have hgiven : g ∈ s.phase.given := by rw [hphase]; exact hg
  rcases hstate with hm | hm
  · exact (h.read key e m he hm).1.imp (fun hstill => hstill g hgiven hof hread)
  · exact (h.kept key e m he hm).imp (fun hkept => hkept.2 g hgiven hof hread)

/-- An image fetched from agrees with memory once the dispatch ran, while it is unwritten since
its mark: its texels were read after it, or the device held it so. -/
theorem Inv.since_fetched (h : Inv watch s) (hphase : s.phase = .preparing given)
    (hcan : CanExecute given uses) {u : Use} {m : Nat} {e : Entry} (hu : (u, false) ∈ uses.each)
    (he : s.registry.entries[u.key]? = some e) (hstate : e.state = .read m ∨ e.state = .kept m)
    (hgen : e.generation = u.generation) :
    watch.Since s.watch e.span m (Agree (s.executed uses stores u.key) s.mem e.span) := by
  obtain ⟨g, hg, hgkey, hggen, hgfresh, -, hread⟩ := hcan.1 (u, false) hu
  have hof : g.Of u.key e := ⟨hgkey, hggen.trans hgen.symm⟩
  rw [executed_of_fetched hcan hu]
  cases hfresh : u.fresh with
  | true => exact h.since_read hphase he hstate hg hof (hread (Or.inl hfresh))
  | false =>
      rcases hstate with hm | hm
      · have hgiven : g ∈ s.phase.given := by rw [hphase]; exact hg
        have := (h.read u.key e m he hm).2 g hgiven hof
        rw [hgfresh] at this
        exact absurd (this.symm.trans hfresh) (by simp)
      · exact (h.kept u.key e m he hm).imp (fun hkept => hkept.1)

theorem ran_of_ok {ok : Bool} {uses' : Uses} {due : List Given}
    (h : (if ok then Phase.ran uses (dueAfter given uses) else .preparing []) = .ran uses' due) :
    uses = uses' ∧ dueAfter given uses = due := by
  cases ok with
  | false => cases h
  | true => simpa using h

/-- A dispatch that ran, or failed, and what the registry then knows. -/
theorem Inv.execute (h : Inv watch s) (hphase : s.phase = .preparing given)
    (hcarrying : s.carrying = none) (hcan : CanExecute given uses) (ok : Bool) :
    Inv watch { s with
      device := s.executed uses stores
      registry := (s.registry.ran watch.toWatchOps s.watch uses ok).1
      watch := (s.registry.ran watch.toWatchOps s.watch uses ok).2
      phase := if ok then .ran uses (dueAfter given uses) else .preparing [] } := by
  obtain ⟨hq, hspec⟩ := Registry.ran_spec watch ok hcan.2 s.registry s.watch
  set r := (s.registry.ran watch.toWatchOps s.watch uses ok).1 with hr
  have hnone : (if ok then Phase.ran uses (dueAfter given uses) else .preparing []).given = [] := by
    cases ok <;> rfl
  constructor
  · rintro key a ⟨e', he', hhas, habs⟩
    cases hstate' : e'.state with
    | read m => simp [hstate'] at habs
    | kept m => simp [hstate'] at habs
    | deferred => simp [hstate', hcarrying] at habs
    | writing =>
        rw [hstate'] at habs
        obtain ⟨uses', due, hran, ⟨u, hu, hukey, -⟩, hdone⟩ := habs
        obtain ⟨rfl, rfl⟩ := ran_of_ok hran
        rcases hspec key e' he' with ⟨hunbound, -⟩ | ⟨used, hused, hkey, e, w', he, hq', hto⟩
        · exact absurd (List.mem_map.mpr ⟨(u, true), mem_each_of_stored hu, hukey⟩) hunbound
        · cases hto with
          | deferred hd => cases hstate'
          | kept m hm hgen hst => cases hstate'
          | writing m hm hgen hst hdef hunwritten =>
              obtain ⟨g, hg, hgkey, hggen, -, -, hread⟩ := hcan.1 used hused
              have hof : g.Of key e := ⟨hgkey.trans hkey, hggen.trans hgen.symm⟩
              have hagree := ((h.since_read hphase he hm hg hof
                (hread (Or.inr ⟨hst, hdef⟩))).quiet hq').of_unwritten hunwritten
              have hdue : g ∈ dueAfter given uses := mem_dueAfter.mpr
                ⟨hg, used.1, mem_stored_of_each (hst ▸ hused), hgkey.symm, hggen.symm, hdef⟩
              have hsame := hdone.resolve_left (fun hall => hall g hdue hof.1)
              exact hsame.trans (hagree a hhas)
  · intro key e' m he' hm
    rcases hspec key e' he' with ⟨-, he⟩ | ⟨used, -, -, e, w', he, -, hto⟩
    · refine ⟨((h.read key e' m he hm).1.quiet hq).imp (fun _ g hg => ?_), fun g hg => ?_⟩
      · rw [hnone] at hg
        cases hg
      · rw [hnone] at hg
        cases hg
    · cases hto <;> cases hm
  · intro key e' m he' hm
    rcases hspec key e' he' with ⟨hunbound, he⟩ | ⟨used, hused, hkey, e, w', he, hq', hto⟩
    · refine ((h.kept key e' m he hm).quiet hq).imp (fun ⟨hagree, _⟩ => ⟨?_, fun g hg => ?_⟩)
      · show Agree (s.executed uses stores key) s.mem e'.span
        rwa [executed_of_unbound hunbound]
      · rw [hnone] at hg
        cases hg
    · cases hto with
      | deferred hd => cases hm
      | writing m' hm' hgen hst hdef hunwritten => cases hm
      | kept m' hm' hgen hst =>
          obtain rfl : m' = m := by simpa using hm
          obtain ⟨u, stored⟩ := used
          obtain rfl : stored = false := hst
          obtain rfl : u.key = key := hkey
          refine ((h.since_fetched hphase hcan hused he hm' hgen).quiet hq).imp
            (fun hagree => ⟨hagree, fun g hg => ?_⟩)
          rw [hnone] at hg
          cases hg
  · intro key e' _ _ g hg
    rw [hnone] at hg
    cases hg
  · intro g hg e' he' hgen
    have hg : g ∈ given := by
      cases ok with
      | false => cases hg
      | true => exact (mem_dueAfter.mp hg).1
    have hplace : g ∈ s.phase.places := by rw [hphase]; exact hg
    rcases hspec _ e' he' with ⟨-, he⟩ | ⟨used, -, -, e, w', he, -, hto⟩
    · exact h.spans g hplace e' he hgen
    · rw [hto.same.1]
      exact h.spans g hplace e he (hto.same.2 ▸ hgen)
  · intro g hg
    rw [hnone] at hg
    cases hg
  · intro uses' due hran g hg u hu hkey
    obtain ⟨rfl, rfl⟩ := ran_of_ok hran
    obtain ⟨-, v, hv, hvkey, hvgen, -⟩ := mem_dueAfter.mp hg
    have heq := hcan.eq_of_key (mem_each_of_stored hu) (mem_each_of_stored hv)
      (hkey.trans hvkey.symm)
    rw [congrArg (fun p => p.1.generation) heq, hvgen]

end Dispatch

/-! ## Whole runs -/

section Runs

variable {walk : List (Nat × Entry) → List (Nat × Entry)}

def Handed (s : System W β) (us : List Use) : Prop :=
  ∀ u ∈ us, u.fresh = false → u.deferred = false → s.Current u.key

theorem inv_take {r : Registry} {w : W} {key : Nat} {given : List Given} {used : Option Use}
    (h : Inv watch s) (hphase : s.phase = .preparing given)
    (hl : Registry.Lesser watch s.registry s.watch r w)
    (ht : ∀ u, used = some u → ∃ e, Registry.Taken watch s.registry s.watch key u r e) :
    let out := { s with registry := r, watch := w }.give given
      (((s.registry.entries[key]?).map Entry.span).getD ⟨0, 0⟩) used
    Inv watch out.2 ∧ Handed out.2 out.1 := by
  cases used with
  | none => exact ⟨h.below hl.below hl.placed hl.quiet, fun u hu => by cases hu⟩
  | some u =>
      obtain ⟨e, hte⟩ := ht u rfl
      obtain ⟨hinv, hcurrent⟩ := h.take hphase hl hte
      rw [hte.entry]
      refine ⟨hinv, fun v hv _ hdef => ?_⟩
      obtain rfl := List.mem_singleton.mp hv
      exact hcurrent hdef

theorem inv_place {r : Registry} {w : W} {key bytes : Nat} {span : Span} {given : List Given}
    {used : Option Use} (h : Inv watch s) (hphase : s.phase = .preparing given)
    (hplace : s.registry.place watch.toWatchOps walk s.watch key span bytes = (used, r, w)) :
    let out := { s with registry := r, watch := w }.give given span used
    Inv watch out.2 ∧ Handed out.2 out.1 := by
  rcases Registry.place_spec walk s.registry s.watch key span bytes hplace with
    ⟨rfl, hl⟩ | ⟨u, e, rfl, hl, ht, rfl⟩ | ⟨u, r₁, w₁, m, rfl, hf⟩
  · exact ⟨h.below hl.below hl.placed hl.quiet, fun u hu => by cases hu⟩
  · obtain ⟨hinv, hcurrent⟩ := h.take hphase hl ht
    refine ⟨hinv, fun v hv _ hdef => ?_⟩
    obtain rfl := List.mem_singleton.mp hv
    exact hcurrent hdef
  · refine ⟨h.fresh hphase hf, fun v hv hfresh => ?_⟩
    obtain rfl := List.mem_singleton.mp hv
    rw [hf.use_eq] at hfresh
    cases hfresh

/-- A step whose writes no mark hides keeps the invariant, and what it hands out as current
is. -/
theorem step_inv [DecidableEq β] (h : Inv watch s) (act : Action β) (hspares : s.Spares act) :
    Inv watch (step watch.toWatchOps walk s act).1 ∧
      Handed (step watch.toWatchOps walk s act).1 (step watch.toWatchOps walk s act).2 := by
  have hnothing : ∀ s' : System W β, Handed s' [] := fun _ u hu => by cases hu
  cases act with
  | write a v =>
      refine ⟨h.writeOver [a] _ (fun b hb key habs => ?_), hnothing _⟩
      obtain rfl := List.mem_singleton.mp hb
      exact absurd habs (hspares key)
  | begin => exact ⟨h.idle rfl, hnothing _⟩
  | takeKept key =>
      cases hphase : s.phase with
      | ran uses due => simpa [step, hphase] using ⟨h, hnothing s⟩
      | preparing given =>
          rcases hout : s.registry.takeKept watch.toWatchOps s.watch key with ⟨used, r, w⟩
          simp only [step, hphase, hout]
          obtain ⟨hl, ht⟩ := Registry.takeKept_spec s.registry s.watch key hout
          simpa only [hphase] using inv_take h hphase hl ht
  | takeDeferred key =>
      cases hphase : s.phase with
      | ran uses due => simpa [step, hphase] using ⟨h, hnothing s⟩
      | preparing given =>
          rcases hout : s.registry.takeDeferred key with ⟨used, r⟩
          simp only [step, hphase, hout]
          obtain ⟨hl, ht⟩ := Registry.takeDeferred_spec watch s.registry s.watch key hout
          simpa only [hphase] using inv_take h hphase hl ht
  | place key span bytes =>
      cases hphase : s.phase with
      | ran uses due => simpa [step, hphase] using ⟨h, hnothing s⟩
      | preparing given =>
          rcases hout : s.registry.place watch.toWatchOps walk s.watch key span bytes with ⟨used, r, w⟩
          simp only [step, hphase, hout]
          simpa only [hphase] using inv_place h hphase hout
  | read key =>
      cases hphase : s.phase with
      | ran uses due => simpa [step, hphase] using ⟨h, hnothing s⟩
      | preparing given =>
          simp only [step, hphase]
          split
          · exact ⟨h.readBytes hphase key, hnothing _⟩
          · exact ⟨h, hnothing _⟩
  | execute uses stores ok =>
      simp only [step]
      split
      · next given hphase hcarrying =>
          split
          · next hcan => exact ⟨h.execute hphase hcarrying hcan ok, hnothing _⟩
          · exact ⟨h, hnothing _⟩
      · exact ⟨h, hnothing _⟩
  | writeBack =>
      simp only [step]
      split
      · next uses g due hphase => exact ⟨h.writeBack hphase (hspares uses g due hphase), hnothing _⟩
      · exact ⟨h, hnothing _⟩
  | writtenBack =>
      simp only [step]
      split
      · next uses hphase => exact ⟨(h.writtenBack hphase).idle rfl, hnothing _⟩
      · exact ⟨h, hnothing _⟩
  | carryOut key generation =>
      simp only [step]
      split
      · next e _ he =>
          split
          · exact ⟨h.carryOut he (hspares e he), hnothing _⟩
          · exact ⟨h, hnothing _⟩
      · exact ⟨h, hnothing _⟩
  | carriedOut =>
      simp only [step]
      split
      · next key generation hcarrying => exact ⟨h.carriedOut hcarrying, hnothing _⟩
      · exact ⟨h, hnothing _⟩
  | forgetAll =>
      refine ⟨h.below (Registry.forgetAll_below walk _) ?_ (WriteWatch.quiet_refl _), hnothing _⟩
      intro k hk
      rwa [Registry.forgetAll_placed]
  | setBudget budget =>
      exact ⟨h.below (Registry.below_refl _) (fun _ hk => hk) (WriteWatch.quiet_refl _), hnothing _⟩

theorem run_inv [DecidableEq β] {acts : List (Action β)} (h : Inv watch s)
    (hspares : (machine watch.toWatchOps walk).Meets Spares s acts) :
    Inv watch ((machine watch.toWatchOps walk).after s acts) :=
  Machine.after_inv_of_meets (I := Inv watch) (g := Spares)
    (fun _ act hinv hact => (step_inv hinv act hact).1) h hspares

/-- In every run none of whose writes is hidden by a mark taken after it, every image that
`takeKept` or `place` hands out as current, neither to be uploaded nor deferred, holds on
the device what an upload of guest memory would give. -/
theorem handed_out_current [DecidableEq β] (watch : WriteWatch W)
    (walk : List (Nat × Entry) → List (Nat × Entry)) (mem : Nat → β) (device before : Nat → Nat → β)
    (w : W) (budget : Nat) {acts : List (Action β)}
    (hspares : (machine watch.toWatchOps walk).Meets Spares (start mem device before w budget) acts)
    {pre : List (Action β)} {act : Action β} (hpre : pre ++ [act] <+: acts) {u : Use}
    (hu : u ∈ ((machine watch.toWatchOps walk).step
      ((machine watch.toWatchOps walk).after (start mem device before w budget) pre) act).2)
    (hfresh : u.fresh = false) (hdeferred : u.deferred = false) :
    ((machine watch.toWatchOps walk).after (start mem device before w budget)
      (pre ++ [act])).Current u.key := by
  obtain ⟨hbefore, hact, -⟩ := Machine.meets_append.mp (hspares.of_prefix hpre)
  have hinv := run_inv (inv_start mem device before w budget) hbefore
  rw [Machine.after_append]
  exact (step_inv hinv act hact).2 u hu hfresh hdeferred

end Runs

/-! ## A watch that keeps every write -/

section Log

/-- The addresses written, oldest first: a mark is how many there are. -/
def logOps : WatchOps (List Nat) where
  mark w _ := (some w.length, w)
  writtenSince w s m := (some ((w.drop m).any (fun a => decide (s.Has a))), w)
  write w a := w ++ [a]

theorem logOps_after (w : List Nat) (es : List WatchEvent) :
    logOps.after w es = w ++ es.filterMap (fun e => match e with | .write a => some a | _ => none) := by
  induction es generalizing w with
  | nil => simp [WatchOps.after]
  | cons e es ih =>
      have hcons : logOps.after w (e :: es) = logOps.after (logOps.next w e) es := rfl
      rw [hcons, ih]
      cases e <;> simp [WatchOps.next, logOps]

def logWatch : WriteWatch (List Nat) where
  toWatchOps := logOps
  reports w s m w' hmark es := by
    rintro ⟨a, ha, hmem⟩
    obtain ⟨rfl, rfl⟩ : w.length = m ∧ w = w' := by simpa [logOps] using hmark
    have hin : a ∈ es.filterMap (fun e => match e with | .write a => some a | _ => none) :=
      List.mem_filterMap.mpr ⟨_, hmem, rfl⟩
    rw [logOps_after]
    simp only [logOps, List.drop_left, ne_eq, Option.some.injEq, List.any_eq_false,
      decide_eq_true_eq, not_forall, not_not]
    exact ⟨a, hin, ha⟩

/-- One byte at address 0 under the key 7, nothing written and the device blank. -/
def logStart : System (List Nat) Nat := start (fun _ => 1) (fun _ _ => 0) (fun _ _ => 0) [] 16

def sampleUse : Use := ⟨7, 1, true, false⟩

/-- Nothing is due and nothing carried, so no mark is waited for. -/
theorem not_absorbs_idle {s : System W β} {given : List Given} (hphase : s.phase = .preparing given)
    (hcarrying : s.carrying = none) (key a : Nat) : ¬ s.Absorbs key a := by
  rintro ⟨e, -, -, habs⟩
  cases hstate : e.state with
  | writing => simp [hstate, hphase] at habs
  | deferred => simp [hstate, hcarrying] at habs
  | read m => simp [hstate] at habs
  | kept m => simp [hstate] at habs

def fetchedRun : List (Action Nat) :=
  [.begin, .place 7 ⟨0, 1⟩ 1, .read 7, .execute ⟨some sampleUse, [], [], []⟩ (fun _ _ => 0) true,
    .begin]

/-- The guest writes another byte, and the image is handed out as current. -/
theorem fetchedRun_current :
    ⟨7, 1, false, false⟩ ∈ ((machine logOps id).step
      ((machine logOps id).after logStart (fetchedRun ++ [.write 50 9])) (.takeKept 7)).2 ∧
    ((machine logOps id).after logStart (fetchedRun ++ [.write 50 9] ++ [.takeKept 7])).Current 7 := by
  have hhanded : ⟨7, 1, false, false⟩ ∈ ((machine logOps id).step
      ((machine logOps id).after logStart (fetchedRun ++ [.write 50 9])) (.takeKept 7)).2 := by decide
  have hspares : (machine logOps id).Meets Spares logStart
      (fetchedRun ++ [.write 50 9] ++ [.takeKept 7]) :=
    ⟨trivial, trivial, trivial, trivial, trivial, fun key => not_absorbs_idle rfl rfl key 50,
      trivial, trivial⟩
  exact ⟨hhanded, handed_out_current logWatch id (fun _ => 1) (fun _ _ => 0) (fun _ _ => 0) [] 16
    hspares (List.prefix_refl _) hhanded rfl rfl⟩

/-- Stored to and written back; the guest writes it before the registry marks it. -/
def storedRun : List (Action Nat) :=
  [.begin, .place 7 ⟨0, 1⟩ 1, .read 7, .execute ⟨none, [], [some sampleUse], []⟩ (fun _ _ => 5) true,
    .writeBack, .write 0 9, .writtenBack, .begin]

/-- The mark hides the guest's write: the image is handed out as current, and is not. -/
theorem storedRun_not_current :
    ⟨7, 1, false, false⟩ ∈ ((machine logWatch.toWatchOps id).step
      ((machine logWatch.toWatchOps id).after logStart storedRun) (.takeKept 7)).2 ∧
    ¬ ((machine logWatch.toWatchOps id).after logStart (storedRun ++ [.takeKept 7])).Current 7 := by
  refine ⟨by decide, ?_⟩
  rintro ⟨e, he, hagree⟩
  have hspan : e.span = ⟨0, 1⟩ := by
    have hentry : (((machine logWatch.toWatchOps id).after logStart
        (storedRun ++ [.takeKept 7])).registry.entries[7]?).map Entry.span = some ⟨0, 1⟩ := by decide
    rw [he] at hentry
    simpa using hentry
  have hzero := hagree 0 (by rw [hspan]; decide)
  exact absurd hzero (by decide)

end Log

end System

end Orbistoun.Gpu
