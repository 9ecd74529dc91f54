import Orbistoun.Mem.Lazy.Basic

/-! # What is known committed

The spans a reservation knows committed, and the bytes it counts, against what the host has
committed of it. A lookup in the spans is exact after any history of insertions. The count is of
bytes the host committed, not of bytes known: a run the host granted in part is counted for that
part and known nowhere.
-/

namespace Orbistoun.Mem.Lazy

open Std (TreeMap)
open Orbistoun.Lib
open Orbistoun.Lib.U64 (saturatingAdd bound)
open Space (Protection guestPageSize)

abbrev Pages := Nat → PageState

/-- What the commits rely on of the host, told by its pages: it answers of a page that is not
free, for alike pages up to a page's end; a granted commit of whole pages commits them and nothing
else, and a refused one nothing. -/
structure Host.Lawful {σ : Type} (host : Host σ) (pages : σ → Pages) : Prop where
  answers : ∀ {s : σ} {a : Nat}, pages s a ≠ .free → (host.virtualQuery s a).isSome = true
  alike : ∀ {s : σ} {a base size : Nat} {state : PageState},
    host.virtualQuery s a = some (base, size, state) →
      a < base + size ∧ base + size < bound ∧ (base + size) % guestPageSize = 0 ∧
        ∀ x, a ≤ x → x < base + size → pages s x = state
  granted : ∀ {s : σ} {a size : Nat} {protection : Protection}, a % guestPageSize = 0 →
    size % guestPageSize = 0 → (host.virtualAlloc s a size protection).1 = true →
      ∀ x, pages (host.virtualAlloc s a size protection).2 x =
        if a ≤ x ∧ x < a + size then .commit else pages s x
  refused : ∀ {s : σ} {a size : Nat} {protection : Protection},
    (host.virtualAlloc s a size protection).1 = false →
      pages (host.virtualAlloc s a size protection).2 = pages s

def Host.Grants {σ : Type} (host : Host σ) (pages : σ → Pages) : Prop :=
  ∀ (s : σ) (a size : Nat) (protection : Protection),
    (∀ x, a ≤ x → x < a + size → pages s x = .reserve) →
      (host.virtualAlloc s a size protection).1 = true

def committedBytes (p : Pages) (lo hi : Nat) : Nat :=
  ((Finset.Ico lo hi).filter (fun x => p x = .commit)).card

theorem committedBytes_congr {p p' : Pages} {lo hi : Nat}
    (h : ∀ x, lo ≤ x → x < hi → p' x = p x) : committedBytes p' lo hi = committedBytes p lo hi := by
  unfold committedBytes
  apply congrArg Finset.card
  apply Finset.filter_congr
  intro x hx
  obtain ⟨hle, hlt⟩ := Finset.mem_Ico.mp hx
  rw [h x hle hlt]

theorem committedBytes_commit {p p' : Pages} {base stop a e : Nat} (hbase : base ≤ a)
    (hstop : e ≤ stop) (hnot : ∀ x, a ≤ x → x < e → p x ≠ .commit)
    (hp' : ∀ x, p' x = if a ≤ x ∧ x < e then .commit else p x) :
    committedBytes p' base stop = committedBytes p base stop + (e - a) := by
  have hdisjoint : Disjoint ((Finset.Ico base stop).filter (fun x => p x = .commit))
      (Finset.Ico a e) := by
    rw [Finset.disjoint_left]
    intro x hx hin
    obtain ⟨hle, hlt⟩ := Finset.mem_Ico.mp hin
    exact hnot x hle hlt (Finset.mem_filter.mp hx).2
  have hunion : (Finset.Ico base stop).filter (fun x => p' x = .commit) =
      (Finset.Ico base stop).filter (fun x => p x = .commit) ∪ Finset.Ico a e := by
    ext x
    simp only [Finset.mem_union, Finset.mem_filter, Finset.mem_Ico, hp']
    by_cases hin : a ≤ x ∧ x < e
    · rw [if_pos hin]
      constructor
      · intro _
        exact Or.inr hin
      · intro _
        exact ⟨⟨by omega, by omega⟩, rfl⟩
    · rw [if_neg hin]
      simp only [hin, or_false]
  unfold committedBytes
  rw [hunion, Finset.card_union_of_disjoint hdisjoint, Nat.card_Ico]

section Pieces

variable {σ : Type} {host : Host σ} {pages : σ → Pages}

theorem Host.Lawful.query (law : host.Lawful pages) {s : σ} {a : Nat} (hfree : pages s a ≠ .free) :
    ∃ runEnd, host.query s a = some (runEnd, pages s a) ∧ a < runEnd ∧
      runEnd % guestPageSize = 0 ∧ ∀ x, a ≤ x → x < runEnd → pages s x = pages s a := by
  obtain ⟨⟨base, size, state⟩, hquery⟩ := Option.isSome_iff_exists.mp (law.answers hfree)
  obtain ⟨hlt, hbound, hpaged, halike⟩ := law.alike hquery
  have hsat : saturatingAdd base size = base + size := by
    unfold saturatingAdd
    omega
  have hstate := halike a (Nat.le_refl _) hlt
  refine ⟨base + size, ?_, hlt, hpaged, ?_⟩
  · unfold Host.query
    rw [hquery, hstate]
    dsimp only
    rw [hsat, if_pos hlt]
  · intro x hle hx
    rw [halike x hle hx, hstate]

/-- What committing pages of `[lo, hi)` may do to the host's pages. -/
structure Grew (p p' : Pages) (lo hi : Nat) : Prop where
  outside : ∀ x, ¬ (lo ≤ x ∧ x < hi) → p' x = p x
  inside : ∀ x, p' x = p x ∨ (p x = .reserve ∧ p' x = .commit)

theorem Grew.refl (p : Pages) (lo hi : Nat) : Grew p p lo hi := by
  constructor
  · exact fun _ _ => rfl
  · exact fun _ => Or.inl rfl

theorem Grew.trans {p p' p'' : Pages} {lo hi : Nat} (h : Grew p p' lo hi)
    (h' : Grew p' p'' lo hi) : Grew p p'' lo hi := by
  constructor
  · intro x hx
    rw [h'.outside x hx, h.outside x hx]
  · intro x
    rcases h.inside x with heq | hgrew <;> rcases h'.inside x with heq' | hgrew'
    · exact Or.inl (heq'.trans heq)
    · exact Or.inr ⟨heq ▸ hgrew'.1, hgrew'.2⟩
    · exact Or.inr ⟨hgrew.1, heq'.trans hgrew.2⟩
    · rw [hgrew.2] at hgrew'
      cases hgrew'.1

theorem Grew.widen {p p' : Pages} {lo hi lo' hi' : Nat} (h : Grew p p' lo hi) (hlo : lo' ≤ lo)
    (hhi : hi ≤ hi') : Grew p p' lo' hi' := by
  constructor
  · intro x hx
    apply h.outside
    omega
  · exact h.inside

theorem Grew.not_free {p p' : Pages} {lo hi x : Nat} (h : Grew p p' lo hi) (hx : p x ≠ .free) :
    p' x ≠ .free := by
  rcases h.inside x with heq | hgrew
  · rw [heq]
    exact hx
  · rw [hgrew.2]
    exact fun hfree => by cases hfree

theorem Grew.commit {p p' : Pages} {lo hi x : Nat} (h : Grew p p' lo hi) (hx : p x = .commit) :
    p' x = .commit := by
  rcases h.inside x with heq | hgrew
  · exact heq.trans hx
  · exact hgrew.2

/-- What a commit of whole pages inside a range does: the bytes it reports are those the host
committed, and where it says so, or the host refuses nothing, all of them are. -/
structure Committed (host : Host σ) (pages : σ → Pages) (s : σ) (lo hi base stop : Nat)
    (before : Nat) (whole : Bool) (out : (Nat × Bool) × σ) : Prop where
  grew : Grew (pages s) (pages out.2) lo hi
  count : committedBytes (pages out.2) base stop + before =
    committedBytes (pages s) base stop + out.1.1
  all : out.1.2 = true → whole = true ∧ ∀ x, lo ≤ x → x < hi → pages out.2 x = .commit
  grants : host.Grants pages → whole = true → out.1.2 = true

/-- A piece, then the rest. -/
theorem Committed.cons {s s' : σ} {lo mid hi base stop before before' : Nat} {whole whole' : Bool}
    {out : (Nat × Bool) × σ} (hlo : lo ≤ mid) (hhi : mid ≤ hi)
    (hgrew : Grew (pages s) (pages s') lo mid)
    (hcount : committedBytes (pages s') base stop + before =
      committedBytes (pages s) base stop + before')
    (hall : whole' = true → whole = true ∧ ∀ x, lo ≤ x → x < mid → pages s' x = .commit)
    (hgrants : host.Grants pages → whole = true → whole' = true)
    (hrest : Committed host pages s' mid hi base stop before' whole' out) :
    Committed host pages s lo hi base stop before whole out := by
  constructor
  · exact (hgrew.widen (Nat.le_refl _) hhi).trans (hrest.grew.widen hlo (Nat.le_refl _))
  · have := hrest.count
    omega
  · intro hwhole
    obtain ⟨hpiece, hrestAll⟩ := hrest.all hwhole
    obtain ⟨hbefore, hpieceAll⟩ := hall hpiece
    apply And.intro hbefore
    intro x hle hlt
    by_cases hx : x < mid
    · exact hrest.grew.commit (hpieceAll x hle hx)
    · exact hrestAll x (Nat.not_lt.mp hx) hlt
  · intro hg hwhole
    exact hrest.grants hg (hgrants hg hwhole)

theorem commitPieces_committed (law : host.Lawful pages) (protection : Protection)
    {hi base stop : Nat} (hhi : hi % guestPageSize = 0) (hstop : hi ≤ stop) :
    ∀ (fuel : Nat) (s : σ) (a before : Nat) (whole : Bool), hi - a ≤ fuel → base ≤ a →
      a % guestPageSize = 0 → (∀ x, a ≤ x → x < hi → pages s x ≠ .free) →
      Committed host pages s a hi base stop before whole
        (host.commitPieces protection hi fuel s a before whole) := by
  have hdone : ∀ (s : σ) (a before : Nat) (whole : Bool), hi ≤ a →
      Committed host pages s a hi base stop before whole ((before, whole), s) := by
    intro s a before whole hle
    constructor
    · exact Grew.refl _ _ _
    · rfl
    · intro hwhole
      apply And.intro hwhole
      intro x hax hxh
      omega
    · exact fun _ hwhole => hwhole
  intro fuel
  induction fuel with
  | zero =>
    intro s a before whole hfuel _ _ _
    exact hdone s a before whole (by omega)
  | succ fuel ih =>
    intro s a before whole hfuel hbase hpaged hfree
    unfold Host.commitPieces
    by_cases hlt : a < hi
    · rw [if_pos hlt]
      obtain ⟨runEnd, hquery, hrun, hrunPaged, halike⟩ := law.query (hfree a (Nat.le_refl _) hlt)
      rw [hquery]
      dsimp only
      have hpiece : a < min runEnd hi := by omega
      have hpieceHi : min runEnd hi ≤ hi := Nat.min_le_right _ _
      have hpieceRun : min runEnd hi ≤ runEnd := Nat.min_le_left _ _
      have hpiecePaged : min runEnd hi % guestPageSize = 0 := by
        rcases Nat.le_total runEnd hi with hle | hle
        · rw [Nat.min_eq_left hle]
          exact hrunPaged
        · rw [Nat.min_eq_right hle]
          exact hhi
      generalize min runEnd hi = pieceEnd at *
      have hrest : ∀ (s' : σ) (before' : Nat) (whole' : Bool),
          Grew (pages s) (pages s') a pieceEnd →
          Committed host pages s' pieceEnd hi base stop before' whole'
            (host.commitPieces protection hi fuel s' pieceEnd before' whole') := by
        intro s' before' whole' hgrew
        apply ih s' pieceEnd before' whole' (by omega) (by omega) hpiecePaged
        intro x hle hx
        exact hgrew.not_free (hfree x (by omega) hx)
      have hsame := fun x hle hx => halike x hle (Nat.lt_of_lt_of_le hx hpieceRun)
      cases hstate : pages s a with
      | reserve =>
        rw [hstate] at hsame
        dsimp only
        cases hgot : (host.virtualAlloc s a (pieceEnd - a) protection).1 with
        | true =>
          have hafter := law.granted hpaged (by
            simp only [guestPageSize] at *
            omega) hgot
          have hrange : a + (pieceEnd - a) = pieceEnd := by omega
          rw [hrange] at hafter
          have hgrew : Grew (pages s) (pages (host.virtualAlloc s a (pieceEnd - a) protection).2)
              a pieceEnd := by
            constructor
            · intro x hx
              rw [hafter, if_neg hx]
            · intro x
              by_cases hx : a ≤ x ∧ x < pieceEnd
              · apply Or.inr
                rw [hafter, if_pos hx]
                exact ⟨hsame x hx.1 hx.2, rfl⟩
              · apply Or.inl
                rw [hafter, if_neg hx]
          rw [if_pos rfl]
          apply Committed.cons hpiece.le hpieceHi hgrew _ _ _ (hrest _ _ _ hgrew)
          · have hcount := committedBytes_commit hbase (hpieceHi.trans hstop)
              (fun x hle hx hcommit => by
                rw [hsame x hle hx] at hcommit
                cases hcommit) hafter
            omega
          · intro hwhole
            apply And.intro hwhole
            intro x hle hx
            rw [hafter, if_pos ⟨hle, hx⟩]
          · exact fun _ hwhole => hwhole
        | false =>
          have hafter := law.refused hgot
          have hgrew : Grew (pages s) (pages (host.virtualAlloc s a (pieceEnd - a) protection).2)
              a pieceEnd := by
            rw [hafter]
            exact Grew.refl _ _ _
          rw [if_neg (by simp)]
          apply Committed.cons hpiece.le hpieceHi hgrew _ _ _ (hrest _ _ _ hgrew)
          · rw [hafter]
          · exact fun hwhole => by cases hwhole
          · intro hg _
            have := hg s a (pieceEnd - a) protection (fun x hle hx => hsame x hle (by omega))
            rw [hgot] at this
            cases this
      | commit =>
        rw [hstate] at hsame
        apply Committed.cons hpiece.le hpieceHi (Grew.refl _ _ _) rfl _ _
          (hrest s before whole (Grew.refl _ _ _))
        · intro hwhole
          exact ⟨hwhole, hsame⟩
        · exact fun _ hwhole => hwhole
      | free => exact absurd hstate (hfree a (Nat.le_refl _) hlt)
    · rw [if_neg hlt]
      exact hdone s a before whole (by omega)

theorem commitUncommitted_committed (law : host.Lawful pages) (protection : Protection) {s : σ}
    {lo hi base stop : Nat} (hlo : lo % guestPageSize = 0) (hhi : hi % guestPageSize = 0)
    (hbase : base ≤ lo) (hstop : hi ≤ stop) (hfree : ∀ x, lo ≤ x → x < hi → pages s x ≠ .free) :
    Committed host pages s lo hi base stop 0 true (host.commitUncommitted s lo hi protection) :=
  commitPieces_committed law protection hhi hstop (hi - lo) s lo 0 true (Nat.le_refl _) hbase hlo
    hfree

end Pieces

/-! ## One reservation -/

section Reservation

variable {σ : Type} {host : Host σ} {pages : σ → Pages}

/-- What a reservation records agrees with the host's pages: its count is of the bytes the host
committed, and it knows committed only what is, all of it where the host refuses nothing. -/
structure Fits (host : Host σ) (pages : σ → Pages) (base : Nat) (l : Lazy) (p : Pages) : Prop where
  paged : base % guestPageSize = 0 ∧ l.len % guestPageSize = 0 ∧ base + l.len < bound
  bounds : IntervalMap.Bounds (fun a => a % guestPageSize = 0) l.protections
  gaps : SpanSet.Sound l.known
  known : ∀ x, SpanSet.Holds l.known x → (base ≤ x ∧ x < base + l.len) ∧ p x = .commit
  held : ∀ x, base ≤ x → x < base + l.len → p x ≠ .free
  count : l.committed = committedBytes p base (base + l.len)
  complete : host.Grants pages → ∀ x, base ≤ x → x < base + l.len → p x = .commit →
    SpanSet.Holds l.known x

theorem Fits.congr {base : Nat} {l : Lazy} {p p' : Pages} (h : Fits host pages base l p)
    (hsame : ∀ x, base ≤ x → x < base + l.len → p' x = p x) : Fits host pages base l p' := by
  constructor
  · exact h.paged
  · exact h.bounds
  · exact h.gaps
  · intro x hx
    obtain ⟨hin, hcommit⟩ := h.known x hx
    exact ⟨hin, (hsame x hin.1 hin.2).trans hcommit⟩
  · intro x hle hlt
    rw [hsame x hle hlt]
    exact h.held x hle hlt
  · rw [h.count]
    exact (committedBytes_congr hsame).symm
  · intro hg x hle hlt hcommit
    rw [hsame x hle hlt] at hcommit
    exact h.complete hg x hle hlt hcommit

theorem Fits.setProtections {base : Nat} {l : Lazy} {p : Pages} (h : Fits host pages base l p)
    {protections : Protections}
    (hbounds : IntervalMap.Bounds (fun a => a % guestPageSize = 0) protections) :
    Fits host pages base { l with protections := protections } p :=
  ⟨h.paged, hbounds, h.gaps, h.known, h.held, h.count, h.complete⟩

/-- A commit of one run keeps the reservation fitting, its count not yet raised. -/
theorem Fits.commitRun (law : host.Lawful pages) {base : Nat} {l : Lazy} {s : σ}
    {committed : Nat} {known : Spans}
    (h : Fits host pages base { l with committed := l.committed + committed, known := known }
      (pages s)) {run : Nat × Nat × Protection} (hlo : run.1 % guestPageSize = 0)
    (hhi : run.2.1 % guestPageSize = 0) (hbase : base ≤ run.1) (hstop : run.2.1 ≤ base + l.len) :
    let out := Lazy.commitRun host (committed, known, s) run
    Fits host pages base { l with committed := l.committed + out.1, known := out.2.1 }
        (pages out.2.2) ∧
      Grew (pages s) (pages out.2.2) run.1 run.2.1 := by
  obtain ⟨lo, hi, protection⟩ := run
  dsimp only at hlo hhi hbase hstop
  unfold Lazy.commitRun
  dsimp only
  by_cases hnone : protection = noAccess
  · rw [if_neg (not_not.mpr hnone)]
    exact ⟨h, Grew.refl _ _ _⟩
  · rw [if_pos hnone]
    have hout := commitUncommitted_committed law protection (s := s) hlo hhi hbase hstop
      (fun x hle hlt => h.held x (by omega) (by dsimp only; omega))
    generalize host.commitUncommitted s lo hi protection = out at hout
    obtain ⟨⟨bytes, whole⟩, s'⟩ := out
    obtain ⟨hgrew, hcount, hall, hgrants⟩ := hout
    dsimp only at hgrew hcount hall hgrants ⊢
    have hbytes : l.committed + (committed + bytes) =
        committedBytes (pages s') base (base + l.len) := by
      have := h.count
      dsimp only at this
      omega
    have hfree : ∀ x, base ≤ x → x < base + l.len → pages s' x ≠ .free :=
      fun x hle hlt => hgrew.not_free (h.held x hle hlt)
    apply And.intro _ hgrew
    cases whole with
    | true =>
      rw [if_pos rfl]
      have hholds : ∀ x, SpanSet.Holds (known.insert lo hi) x ↔
          (lo ≤ x ∧ x < hi) ∨ SpanSet.Holds known x := fun x => h.gaps.holds_insert lo hi x
      constructor
      · exact h.paged
      · exact h.bounds
      · exact h.gaps.insert lo hi
      · intro x hx
        rcases (hholds x).mp hx with hnew | hold
        · exact ⟨by dsimp only; omega, (hall rfl).2 x hnew.1 hnew.2⟩
        · obtain ⟨hin, hcommit⟩ := h.known x hold
          exact ⟨hin, hgrew.commit hcommit⟩
      · exact hfree
      · exact hbytes
      · intro hg x hle hlt hcommit
        apply (hholds x).mpr
        by_cases hin : lo ≤ x ∧ x < hi
        · exact Or.inl hin
        · rw [hgrew.outside x hin] at hcommit
          exact Or.inr (h.complete hg x hle hlt hcommit)
    | false =>
      rw [if_neg (by simp)]
      constructor
      · exact h.paged
      · exact h.bounds
      · exact h.gaps
      · intro x hx
        obtain ⟨hin, hcommit⟩ := h.known x hx
        exact ⟨hin, hgrew.commit hcommit⟩
      · exact hfree
      · exact hbytes
      · intro hg
        have := hgrants hg rfl
        cases this

theorem Fits.commitRuns (law : host.Lawful pages) {base : Nat} {l : Lazy} {lo hi : Nat}
    (hbase : base ≤ lo) (hstop : hi ≤ base + l.len) (runs : List (Nat × Nat × Protection))
    (hruns : ∀ r ∈ runs, (lo ≤ r.1 ∧ r.2.1 ≤ hi) ∧ r.1 % guestPageSize = 0 ∧
      r.2.1 % guestPageSize = 0) {s : σ} (committed : Nat) (known : Spans)
    (h : Fits host pages base { l with committed := l.committed + committed, known := known }
      (pages s)) :
    let out := runs.foldl (Lazy.commitRun host) (committed, known, s)
    Fits host pages base { l with committed := l.committed + out.1, known := out.2.1 }
        (pages out.2.2) ∧
      Grew (pages s) (pages out.2.2) lo hi := by
  induction runs generalizing s committed known with
  | nil => exact ⟨h, Grew.refl _ _ _⟩
  | cons run runs ih =>
    obtain ⟨⟨hlo, hhi⟩, hlop, hhip⟩ := hruns run List.mem_cons_self
    obtain ⟨hfits, hgrew⟩ := h.commitRun law hlop hhip (by omega) (by omega)
    obtain ⟨hrest, hgrews⟩ := ih (fun r hr => hruns r (List.mem_cons_of_mem _ hr)) _ _ hfits
    exact ⟨hrest, (hgrew.widen hlo hhi).trans hgrews⟩

/-- A commit inside a reservation keeps it fitting, and reports what it adds to the count. -/
theorem Fits.commitIn (law : host.Lawful pages) {base : Nat} {l : Lazy} {s : σ}
    (h : Fits host pages base l (pages s)) {lo hi : Nat} (hlo : lo % guestPageSize = 0)
    (hhi : hi % guestPageSize = 0) (hbase : base ≤ lo) (hstop : hi ≤ base + l.len) :
    let out := Lazy.commitIn host s l lo hi
    Fits host pages base out.2.1 (pages out.2.2) ∧ out.2.1.len = l.len ∧
      Grew (pages s) (pages out.2.2) lo hi := by
  unfold Lazy.commitIn
  split
  · exact ⟨h, rfl, Grew.refl _ _ _⟩
  · have hruns : ∀ r ∈ l.protections.runs lo hi, (lo ≤ r.1 ∧ r.2.1 ≤ hi) ∧
        r.1 % guestPageSize = 0 ∧ r.2.1 % guestPageSize = 0 := by
      intro r hr
      obtain ⟨hle, -, hlt⟩ := IntervalMap.runsOver_within hr
      exact ⟨⟨hle, hlt⟩, h.bounds.runsOver hlo hhi hr⟩
    obtain ⟨hfits, hgrew⟩ := Fits.commitRuns law hbase hstop (l.protections.runs lo hi) hruns 0
      l.known h
    exact ⟨hfits, rfl, hgrew⟩

end Reservation

end Orbistoun.Mem.Lazy
