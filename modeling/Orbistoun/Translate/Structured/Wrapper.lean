import Orbistoun.Translate.Structured.Emit
import Orbistoun.Translate.Structured.Sound

/-! # Branches to a segment's end

Where a plan needs no wrapper, what is emitted of it branches to the label of the segment's end from
outside every construct of the segment.
-/

namespace Orbistoun.Translate.Structured

open Lib.Constructs

def Word.effect : Word → Effect
  | .label id => .label id
  | .branch target => .branch [target]
  | .branchConditional _ taken fall => .branch [taken, fall]
  | .selectionMerge merge => .merge merge
  | .loopMerge merge _ => .merge merge
  | _ => .plain

/-- A word that is no label, opens no construct and does not branch to `done`. -/
def Word.Flat (done : Nat) (w : Word) : Prop :=
  (∀ held, w.effect.nest held = held) ∧ done ∉ w.effect.targets

section
variable {done : Nat}

theorem Word.flat_of_plain {w : Word} (hw : w.effect = .plain) : w.Flat done := by
  rw [Word.Flat, hw]
  exact ⟨fun _ => rfl, List.not_mem_nil⟩

theorem flat_branch {target : Nat} (h : done < target) : (Word.branch target).Flat done := by
  constructor
  · intro held
    rfl
  · intro hmem
    have := List.mem_singleton.mp hmem
    omega

theorem flat_branchConditional {condition taken fall : Nat} (htaken : done < taken)
    (hfall : done < fall) : (Word.branchConditional condition taken fall).Flat done := by
  constructor
  · intro held
    rfl
  · intro hmem
    rcases List.mem_cons.mp hmem with h | h
    · omega
    · have := List.mem_singleton.mp h
      omega

end

/-! ## Frames -/

def Frame.bare : Frame → Frame
  | .loop merge cont _ => .loop merge cont false
  | .selection merge => .selection merge

def Frame.Above (done : Nat) : Frame → Prop
  | .loop merge cont _ => done < merge ∧ done < cont
  | .selection merge => done < merge

def inLoop (frames : List Frame) : Bool := (innermostLoop frames).isSome

theorem innermostLoop_bare : ∀ frames : List Frame,
    innermostLoop (frames.map Frame.bare) = innermostLoop frames
  | [] => rfl
  | .loop _ _ _ :: _ => rfl
  | .selection _ :: rest => innermostLoop_bare rest

theorem markExited_bare : ∀ frames : List Frame,
    (markExited frames).map Frame.bare = frames.map Frame.bare
  | [] => rfl
  | .loop _ _ _ :: _ => rfl
  | .selection _ :: rest => congrArg (_ :: ·) (markExited_bare rest)

theorem Frame.above_bare (done : Nat) (f : Frame) : f.bare.Above done ↔ f.Above done := by
  cases f <;> rfl

theorem above_innermostLoop {done : Nat} : ∀ {frames : List Frame} {found : Nat × Nat},
    (∀ f ∈ frames, f.Above done) → innermostLoop frames = some found →
    done < found.1 ∧ done < found.2
  | .loop _ _ _ :: _, _, h, hfound => by
      cases hfound
      exact h _ List.mem_cons_self
  | .selection _ :: rest, _, h, hfound =>
      above_innermostLoop (fun f hf => h f (List.mem_cons_of_mem _ hf)) hfound

/-- The ids given and those of the constructs being emitted are all above `done`. -/
structure Emission.Above (s : Emission) (done : Nat) : Prop where
  next : done < s.next
  frames : ∀ f ∈ s.frames, f.Above done

theorem Emission.Above.push {s : Emission} {done next : Nat} {f : Frame} (h : s.Above done)
    (hf : f.Above done) (hnext : done < next) : Emission.Above ⟨next, f :: s.frames⟩ done := by
  constructor
  · exact hnext
  · exact List.forall_mem_cons.mpr ⟨hf, h.frames⟩

/-! ## What is written between two states -/

/-- `words` are written from `s` to `s'`. They end what they open and nothing open before them with
a label `old`; where `quiet` they do not branch to `done`, and where `still` nothing in them jumps to
the program's end. -/
structure Wrote (done : Nat) (old : Nat → Prop) (quiet still : Prop) (s : Emission)
    (words : List Word) (s' : Emission) : Prop where
  next_le : s.next ≤ s'.next
  bare : s'.frames.map Frame.bare = s.frames.map Frame.bare
  closed : Closed Word.effect old words
  avoids : quiet → Avoids Word.effect done words
  frames : still → s'.frames = s.frames

namespace Wrote
variable {done : Nat} {old old' : Nat → Prop} {quiet quiet' still still' : Prop}
  {s s' s'' : Emission} {words words' : List Word}

theorem nil (s : Emission) : Wrote done old quiet still s [] s := by
  constructor
  · exact le_refl _
  · rfl
  · exact Closed.nil _
  · intro _
    exact avoids_nil _ _
  · intro _
    rfl

theorem mono (h : Wrote done old quiet still s words s') (hold : ∀ k, old' k → old k)
    (hquiet : quiet' → quiet) (hstill : still' → still) :
    Wrote done old' quiet' still' s words s' := by
  constructor
  · exact h.next_le
  · exact h.bare
  · exact h.closed.mono hold
  · intro hq
    exact h.avoids (hquiet hq)
  · intro hs
    exact h.frames (hstill hs)

theorem append (h : Wrote done old quiet still s words s')
    (h' : Wrote done old quiet still s' words' s'') :
    Wrote done old quiet still s (words ++ words') s'' := by
  constructor
  · exact le_trans h.next_le h'.next_le
  · rw [h'.bare, h.bare]
  · exact h.closed.append h'.closed
  · intro hq
    exact (avoids_append _ _ _ _).mpr ⟨h.avoids hq, h'.avoids hq⟩
  · intro hs
    rw [h'.frames hs, h.frames hs]

theorem cons_flat {w : Word} (hw : w.Flat done) (h : Wrote done old quiet still s words s') :
    Wrote done old quiet still s (w :: words) s' := by
  constructor
  · exact h.next_le
  · exact h.bare
  · exact h.closed.cons_flat hw.1
  · intro hq
    exact (avoids_cons _ _ _ _).mpr ⟨hw.2, h.avoids hq⟩
  · exact h.frames

theorem cons_label {l : Nat} (hl : ¬ old l) (h : Wrote done old quiet still s words s') :
    Wrote done old quiet still s (.label l :: words) s' := by
  constructor
  · exact h.next_le
  · exact h.bare
  · exact h.closed.cons_label rfl hl
  · intro hq
    exact (avoids_cons _ _ _ _).mpr ⟨List.not_mem_nil, h.avoids hq⟩
  · exact h.frames

theorem enclose {w : Word} {merge : Nat} (hw : w.effect = .merge merge)
    (h : Wrote done (fun k => k = merge ∨ old k) quiet still s words s') :
    Wrote done old quiet still s (w :: (words ++ [Word.label merge])) s' := by
  constructor
  · exact h.next_le
  · exact h.bare
  · exact Closed.cons_merge hw rfl h.closed (Closed.nil _)
  · intro hq
    rw [avoids_cons, avoids_append, avoids_cons, hw]
    exact ⟨List.not_mem_nil, h.avoids hq, List.not_mem_nil, avoids_nil _ _⟩
  · exact h.frames

/-- A construct's frame is put on before the words and taken off after them. -/
theorem pop {f : Frame} {next : Nat} (hnext : s.next ≤ next)
    (h : Wrote done old quiet still ⟨next, f :: s.frames⟩ words s') :
    Wrote done old quiet still s words { s' with frames := s'.frames.tail } := by
  constructor
  · exact le_trans hnext h.next_le
  · show s'.frames.tail.map Frame.bare = s.frames.map Frame.bare
    rw [List.map_tail, h.bare]
    rfl
  · exact h.closed
  · exact h.avoids
  · intro hs
    show s'.frames.tail = s.frames
    rw [h.frames hs]
    rfl

theorem selection (condition : Nat) {taken fall merge next : Nat} (htaken : done < taken)
    (hfall : done < fall) (hnext : s.next ≤ next)
    (h : Wrote done (fun k => k = merge ∨ old k) quiet still ⟨next, .selection merge :: s.frames⟩
      words s') :
    Wrote done old quiet still s
      (.selectionMerge merge :: .branchConditional condition taken fall ::
        (words ++ [Word.label merge]))
      { s' with frames := s'.frames.tail } :=
  enclose rfl (cons_flat (flat_branchConditional htaken hfall) (pop hnext h))

theorem above (h : Wrote done old quiet still s words s') (hs : s.Above done) : s'.Above done := by
  constructor
  · exact lt_of_lt_of_le hs.next h.next_le
  · intro f hf
    have hmem : f.bare ∈ s.frames.map Frame.bare := by
      rw [← h.bare]
      exact List.mem_map_of_mem hf
    obtain ⟨g, hg, hbare⟩ := List.mem_map.mp hmem
    rw [← f.above_bare, ← hbare, g.above_bare]
    exact hs.frames g hg

theorem inLoop_eq (h : Wrote done old quiet still s words s') :
    inLoop s'.frames = inLoop s.frames := by
  rw [inLoop, ← innermostLoop_bare, h.bare, innermostLoop_bare]
  rfl

end Wrote

/-! ## Jumps -/

namespace Emitter

variable {P : Emitter} {done : Nat} {s : Emission}

theorem emitExit_wrote (old : Nat → Prop) (hs : s.Above done) :
    Wrote done old (inLoop s.frames = true) False s (P.emitExit done s).1 (P.emitExit done s).2 := by
  constructor
  · exact le_refl _
  · exact markExited_bare s.frames
  · apply Closed.cons_flat (fun _ => rfl)
    exact Closed.cons_flat (fun _ => rfl) (Closed.nil _)
  · intro hin
    obtain ⟨found, hfound⟩ := Option.isSome_iff_exists.mp hin
    have habove := above_innermostLoop hs.frames hfound
    rw [emitExit, avoids_cons, avoids_cons, hfound]
    exact ⟨List.not_mem_nil, (flat_branch habove.1).2, avoids_nil _ _⟩
  · exact False.elim

theorem countJump_wrote (branch : Nat) (hs : s.Above done) {next : Nat} (hnext : s.next ≤ next) :
    Wrote done (· < s.next) True True s (countJump branch s.next) { s with next := next } := by
  have hdone := hs.next
  have hinside : Wrote done (fun k => k = s.next + 4 ∨ k < s.next) True True s
      [.branchConditional (s.next + 2) (s.next + 3) (s.next + 4), .label (s.next + 3),
        .observe branch, .branch (s.next + 4)] { s with next := next } := by
    apply Wrote.cons_flat (flat_branchConditional (by omega) (by omega))
    apply Wrote.cons_label (by omega)
    apply Wrote.cons_flat (Word.flat_of_plain rfl)
    apply Wrote.cons_flat (flat_branch (by omega))
    exact ⟨hnext, rfl, Closed.nil _, fun _ => avoids_nil _ _, fun _ => rfl⟩
  apply Wrote.cons_flat (Word.flat_of_plain rfl)
  apply Wrote.cons_flat (Word.flat_of_plain rfl)
  apply Wrote.cons_flat (Word.flat_of_plain rfl)
  apply Wrote.cons_flat (Word.flat_of_plain rfl)
  exact hinside.enclose rfl

/-- The jump past the cap is a jump to the program's end, in a selection with no frame of its own. -/
theorem emitCount_wrote (branch : Nat) (hs : s.Above done) :
    Wrote done (· < s.next) (inLoop s.frames = true) (P.budgeted = false) s
      (P.emitCount done branch s).1 (P.emitCount done branch s).2 := by
  rw [emitCount]
  split
  · rename_i hbudget
    have hdone := hs.next
    let stop := s.next + 5 + P.observe branch
    let counted : Emission := { s with next := stop + 1 + 1 }
    have hcount : Wrote done (· < s.next) (inLoop s.frames = true) False s
        (countJump branch s.next) counted :=
      (countJump_wrote branch hs (by omega)).mono (fun _ h => h) (fun _ => trivial) False.elim
    have hexit := emitExit_wrote (P := P) (fun k => k = stop + 1 ∨ k < s.next) (hcount.above hs)
    have hstop : Wrote done (· < s.next) (inLoop s.frames = true) False counted
        ([Word.selectionMerge (stop + 1), .branchConditional (s.next + 2) stop (stop + 1),
          .label stop] ++ (P.emitExit done counted).1 ++ [Word.label (stop + 1)])
        (P.emitExit done counted).2 := by
      apply Wrote.enclose rfl
      apply Wrote.cons_flat (flat_branchConditional (by omega) (by omega))
      exact Wrote.cons_label (by omega) hexit
    have hall := hcount.append hstop
    exact hall.mono (fun _ h => h) (fun h => h) (fun hno => by rw [hbudget] at hno; cases hno)
  · exact Wrote.nil s

theorem emitJump_wrote {j : Jump} {out : List Word × Emission} (hs : s.Above done)
    (h : P.emitJump done s j = .ok out) :
    Wrote done (· < s.next) (j ≠ .leave ∧ (inLoop s.frames = true ∨ j ≠ .exit))
      (P.budgeted = false ∧ j ≠ .exit) s out.1 out.2 := by
  have hdone := hs.next
  cases j with
  | continues branch =>
      have hcount := emitCount_wrote (P := P) branch hs
      rw [emitJump] at h
      split at h
      · cases h
      · rename_i found cont hfound
        cases h
        have hin : inLoop s.frames = true := by
          rw [← hcount.inLoop_eq, inLoop, hfound]
          rfl
        have habove := above_innermostLoop (hcount.above hs).frames hfound
        have hjump : Wrote done (· < s.next) (inLoop s.frames = true) (P.budgeted = false)
            (P.emitCount done branch s).2 [.branch cont] (P.emitCount done branch s).2 :=
          Wrote.cons_flat (flat_branch habove.2) (Wrote.nil _)
        exact (hcount.append hjump).mono (fun _ h => h) (fun _ => hin) (fun h => h.1)
  | breaks code next =>
      rw [emitJump] at h
      split at h
      · cases h
      · rename_i merge _ hfound
        cases h
        have habove := above_innermostLoop hs.frames hfound
        split
        · exact Wrote.cons_flat (flat_branch habove.1) (Wrote.nil _)
        · apply Wrote.cons_flat (Word.flat_of_plain rfl)
          exact Wrote.cons_flat (flat_branch habove.1) (Wrote.nil _)
  | exit =>
      rw [emitJump] at h
      cases h
      apply (emitExit_wrote _ hs).mono (fun _ h => h)
      · intro hq
        exact hq.2.resolve_right (fun h => h rfl)
      · intro hstill
        exact hstill.2 rfl
  | leave =>
      rw [emitJump] at h
      cases h
      refine ⟨le_refl _, rfl, Closed.cons_flat (fun _ => rfl) (Closed.nil _), ?_, fun _ => rfl⟩
      intro hq
      exact absurd rfl hq.1
  | escape code =>
      rw [emitJump] at h
      split at h
      · rename_i merge rest hframes
        cases h
        have habove : done < merge := hs.frames (.selection merge) (by rw [hframes]; simp)
        apply Wrote.cons_flat (Word.flat_of_plain rfl)
        exact Wrote.cons_flat (flat_branch habove) (Wrote.nil _)
      · cases h

/-! ## A loop's routes -/

theorem emitRoutes_wrote {next : Bool} : ∀ {routes : List (Nat × Jump)} {s : Emission}
    {out : Bool × List Word × Emission}, s.Above done → P.emitRoutes done next routes s = .ok out →
    Wrote done (· < s.next)
      (∀ route ∈ routes, route.2 ≠ .leave ∧ (inLoop s.frames = true ∨ route.2 ≠ .exit))
      (P.budgeted = false ∧ ∀ route ∈ routes, route.2 ≠ .exit) s out.2.1 out.2.2
  | [], s, out, _, h => by
      rw [emitRoutes] at h
      cases h
      split
      · exact Wrote.nil s
      · exact Wrote.cons_flat (Word.flat_of_plain rfl) (Wrote.nil _)
  | (code, j) :: rest, s, out, hs, h => by
      have hdone := hs.next
      rw [emitRoutes] at h
      split at h
      · rw [bind_eq_ok] at h
        obtain ⟨last, hlast, h⟩ := h
        cases h
        exact (emitJump_wrote hs hlast).mono (fun _ h => h) (fun h => h _ List.mem_cons_self)
          (fun h => ⟨h.1, h.2 _ List.mem_cons_self⟩)
      · simp only at h
        rw [bind_eq_ok] at h
        obtain ⟨arm, harm, h⟩ := h
        rw [bind_eq_ok] at h
        obtain ⟨others, hothers, h⟩ := h
        cases h
        have habove : Emission.Above ⟨s.next + 4, .selection (s.next + 3) :: s.frames⟩ done :=
          hs.push (show done < s.next + 3 by omega) (by omega)
        have hjump := (emitJump_wrote habove harm).mono
          (fun k (hk : k = s.next + 3 ∨ k < s.next) => by show k < s.next + 4; omega)
          (fun h : ∀ route ∈ (code, j) :: rest, route.2 ≠ .leave ∧
            (inLoop s.frames = true ∨ route.2 ≠ .exit) => h _ List.mem_cons_self)
          (fun h : P.budgeted = false ∧ ∀ route ∈ (code, j) :: rest, route.2 ≠ .exit =>
            ⟨h.1, h.2 _ List.mem_cons_self⟩)
        have htaken : done < s.next + 2 := by omega
        have hfall : done < s.next + 3 := by omega
        have hlabel : ¬ (s.next + 2 = s.next + 3 ∨ s.next + 2 < s.next) := by omega
        have hselection := Wrote.selection (s.next + 1) htaken hfall (by omega)
          (hjump.cons_label hlabel)
        have hrest := emitRoutes_wrote (hselection.above hs) hothers
        rw [hselection.inLoop_eq] at hrest
        have hafter := hselection.append (hrest.mono
          (fun k hk => lt_of_lt_of_le hk hselection.next_le)
          (fun h route hroute => h route (List.mem_cons_of_mem _ hroute))
          (fun h => ⟨h.1, fun route hroute => h.2 route (List.mem_cons_of_mem _ hroute)⟩))
        have hequal : (Word.equal (s.next + 1) s.next code).Flat done := Word.flat_of_plain rfl
        have hload : (Word.load s.next).Flat done := Word.flat_of_plain rfl
        simpa only [List.cons_append, List.nil_append, List.append_assoc] using
          (hafter.cons_flat hequal).cons_flat hload

/-! ## Sequences -/

/-- The condition on a node under which nothing emitted of it branches to `done`, and the one under
which nothing in it jumps to the program's end. -/
abbrev Quiet (within needs : Bool) : Prop := within = true ∨ needs = false

abbrev Still (budgeted exits : Bool) : Prop := budgeted = false ∧ exits = false

section
variable {within a b : Bool}

theorem quiet_left (h : Quiet within (a || b)) : Quiet within a :=
  h.imp_right (fun h => (Bool.or_eq_false_iff.mp h).1)

theorem quiet_right (h : Quiet within (a || b)) : Quiet within b :=
  h.imp_right (fun h => (Bool.or_eq_false_iff.mp h).2)

theorem still_left (h : Still within (a || b)) : Still within a :=
  ⟨h.1, (Bool.or_eq_false_iff.mp h.2).1⟩

theorem still_right (h : Still within (a || b)) : Still within b :=
  ⟨h.1, (Bool.or_eq_false_iff.mp h.2).2⟩

end

theorem emitArm_wrote (old : Nat → Prop) {empty : Bool} {label merge : Nat}
    {body : Emission → Written} {out : List Word × Emission} {quiet still : Prop}
    (hbody : ∀ inside, body s = .ok inside →
      Wrote done (· < s.next) quiet still s inside.2.1 inside.2.2)
    (hold : ∀ k, old k → k < s.next) (hlabel : empty = false → ¬ old label) (hmerge : done < merge)
    (h : emitArm empty label merge s body = .ok out) :
    Wrote done old quiet still s out.1 out.2 := by
  rw [emitArm] at h
  split at h
  · cases h
    exact Wrote.nil s
  · rename_i hempty
    rw [bind_eq_ok] at h
    obtain ⟨inside, hinside, h⟩ := h
    cases h
    have hwords := (hbody inside hinside).mono hold (fun h => h) (fun h => h)
    have hend : Wrote done old quiet still inside.2.2
        (if inside.1 then [Word.branch merge] else []) inside.2.2 := by
      split
      · exact Wrote.cons_flat (flat_branch hmerge) (Wrote.nil _)
      · exact Wrote.nil _
    apply Wrote.cons_label
    · exact hlabel (Bool.eq_false_iff.mpr hempty)
    · exact hwords.append hend

theorem resetWords_wrote {old : Nat → Prop} {quiet still : Prop} (reset : Bool) (s : Emission) :
    Wrote done old quiet still s (resetWords reset) s := by
  cases reset with
  | false => exact Wrote.nil s
  | true => exact Wrote.cons_flat (Word.flat_of_plain rfl) (Wrote.nil s)

theorem unreachable_wrote {old : Nat → Prop} {quiet still : Prop} (merged : Bool) (s : Emission) :
    Wrote done old quiet still s (if merged then [] else [.unreachable]) s := by
  cases merged with
  | true => exact Wrote.nil s
  | false => exact Wrote.cons_flat (Word.flat_of_plain rfl) (Wrote.nil s)

theorem loop_wrote {quiet still : Prop} {words : List Word} {s' : Emission} (on reset : Bool)
    (hs : s.Above done)
    (h : Wrote done (· < s.next + 4) quiet still
      ⟨s.next + 4, .loop (s.next + 3) (s.next + 2) false :: s.frames⟩ words s') :
    Wrote done (· < s.next) quiet still s
      (resetWords reset ++ [Word.branch s.next, .label s.next, .loopMerge (s.next + 3) (s.next + 2),
        .branch (s.next + 1), .label (s.next + 1)] ++ words ++
        (if on then [Word.branch (s.next + 2)] else []) ++
        [Word.label (s.next + 2), .branch s.next, .label (s.next + 3)])
      { s' with frames := s'.frames.tail } := by
  have hdone := hs.next
  have hon : Wrote done (fun k => k = s.next + 3 ∨ k < s.next) quiet still s'
      (if on then [.branch (s.next + 2)] else []) s' := by
    split
    · exact Wrote.cons_flat (flat_branch (by omega)) (Wrote.nil _)
    · exact Wrote.nil _
  have hback : Wrote done (fun k => k = s.next + 3 ∨ k < s.next) quiet still s'
      [.label (s.next + 2), .branch s.next] s' := by
    apply Wrote.cons_label (by omega)
    exact Wrote.cons_flat (flat_branch hdone) (Wrote.nil _)
  have hwords := (h.mono (fun k (hk : k = s.next + 3 ∨ k < s.next) => by omega) (fun h => h)
    (fun h => h)).append (hon.append hback)
  have hinside := hwords.cons_label (l := s.next + 1) (by omega)
  have hconstruct := Wrote.enclose (w := .loopMerge (s.next + 3) (s.next + 2)) rfl
    ((hinside.cons_flat (flat_branch (show done < s.next + 1 by omega))).pop (by omega))
  have hall := (resetWords_wrote reset s).append
    ((hconstruct.cons_label (l := s.next) (by exact lt_irrefl _)).cons_flat (flat_branch hdone))
  simpa only [List.cons_append, List.nil_append, List.append_assoc] using hall

section
variable {body : List Node} {routes : List (Nat × Jump)} {exited : Bool}

/-- What a loop's merge routes: the program's end, where something inside jumped to it, then the
plan's own routes. -/
theorem routed_of_still (hexited : Still P.budgeted (seqExits body) → exited = false)
    (hstill : Still P.budgeted (seqExits body)) :
    (if exited then [(P.exit, Jump.exit)] else []) ++ routes = routes := by
  rw [hexited hstill]
  rfl

theorem routes_quiet {next reset within : Bool} (hroutes : ∀ route ∈ routes, route.2.Routable)
    (hexited : Still P.budgeted (seqExits body) → exited = false)
    (hquiet : Quiet within ((Node.loop body routes next reset).needsWrapper false P.budgeted)) :
    ∀ route ∈ (if exited then [(P.exit, Jump.exit)] else []) ++ routes,
      route.2 ≠ .leave ∧ (within = true ∨ route.2 ≠ .exit) := by
  intro route hroute
  rcases hquiet with hin | hneeds
  · rcases List.mem_append.mp hroute with hexit | hroute
    · split at hexit
      · rw [List.mem_singleton.mp hexit]
        exact ⟨fun h => Jump.noConfusion h, Or.inl hin⟩
      · cases hexit
    · exact ⟨(hroutes route hroute).2, Or.inl hin⟩
  · have hstill : Still P.budgeted (seqExits body) := by
      simpa [Node.needsWrapper, Still] using hneeds
    rw [routed_of_still hexited hstill] at hroute
    exact ⟨(hroutes route hroute).2, Or.inr (hroutes route hroute).1⟩

theorem routes_still (hroutes : ∀ route ∈ routes, route.2.Routable)
    (hexited : Still P.budgeted (seqExits body) → exited = false)
    (hstill : Still P.budgeted (seqExits body)) :
    P.budgeted = false ∧
      ∀ route ∈ (if exited then [(P.exit, Jump.exit)] else []) ++ routes, route.2 ≠ .exit := by
  constructor
  · exact hstill.1
  · intro route hroute
    rw [routed_of_still hexited hstill] at hroute
    exact (hroutes route hroute).1

end

theorem emitNode_loop {body : List Node} {routes : List (Nat × Jump)} {next reset : Bool}
    {out : Bool × List Word × Emission} (hs : s.Above done)
    (hbody : ∀ {around : Bool × List Word × Emission},
      Emission.Above ⟨s.next + 4, .loop (s.next + 3) (s.next + 2) false :: s.frames⟩ done →
      P.emitSeq done body ⟨s.next + 4, .loop (s.next + 3) (s.next + 2) false :: s.frames⟩ =
        .ok around →
      Wrote done (· < s.next + 4) (Quiet true (needsWrapper body false P.budgeted))
        (Still P.budgeted (seqExits body))
        ⟨s.next + 4, .loop (s.next + 3) (s.next + 2) false :: s.frames⟩ around.2.1 around.2.2)
    (h : P.emitNode done (.loop body routes next reset) s = .ok out) :
    ∃ (exited : Bool) (words : List Word) (mid : Emission) (routed : Bool × List Word × Emission),
      Wrote done (· < s.next) True (Still P.budgeted (seqExits body)) s words mid ∧
      (Still P.budgeted (seqExits body) → exited = false) ∧
      P.emitRoutes done next ((if exited then [(P.exit, .exit)] else []) ++ routes) mid =
        .ok routed ∧
      out = (routed.1, words ++ routed.2.1, routed.2.2) := by
  rw [emitNode, bind_eq_ok] at h
  obtain ⟨around, haround, h⟩ := h
  rw [bind_eq_ok] at h
  obtain ⟨routed, hrouted, h⟩ := h
  cases h
  have hdone := hs.next
  have habove : Emission.Above ⟨s.next + 4, .loop (s.next + 3) (s.next + 2) false :: s.frames⟩
      done := hs.push ⟨by omega, by omega⟩ (by omega)
  have hwrote := hbody habove haround
  refine ⟨exitedOf around.2.2.frames, _, _, routed,
    (loop_wrote around.1 reset hs hwrote).mono (fun _ h => h) (fun _ => Or.inl rfl) (fun h => h),
    ?_, hrouted, rfl⟩
  intro hstill
  rw [hwrote.frames hstill]
  rfl

theorem armLabel_spec (arm : List Node) (merge next : Nat) (h : merge < next) :
    merge ≤ (armLabel arm merge next).1 ∧ next ≤ (armLabel arm merge next).2 ∧
      (arm.isEmpty = false → next ≤ (armLabel arm merge next).1 ∧
        (armLabel arm merge next).1 < (armLabel arm merge next).2) := by
  rw [armLabel]
  split
  · rename_i hempty
    refine ⟨le_refl _, le_refl _, fun hno => ?_⟩
    rw [hempty] at hno
    cases hno
  · exact ⟨le_of_lt h, Nat.le_succ next, fun _ => ⟨le_refl _, Nat.lt_succ_self next⟩⟩

mutual

theorem emitSeq_wrote : ∀ (seq : List Node) {s : Emission} {out : Bool × List Word × Emission},
    s.Above done → SeqSound (inLoop s.frames) seq → P.emitSeq done seq s = .ok out →
    Wrote done (· < s.next) (Quiet (inLoop s.frames) (needsWrapper seq false P.budgeted))
      (Still P.budgeted (seqExits seq)) s out.2.1 out.2.2
  | [], s, out, _, _, h => by
      rw [emitSeq] at h
      cases h
      exact Wrote.nil s
  | node :: rest, s, out, hs, hsound, h => by
      rw [emitSeq, bind_eq_ok] at h
      obtain ⟨first, hfirst, h⟩ := h
      have hnode : Wrote done (· < s.next)
          (Quiet (inLoop s.frames) (needsWrapper (node :: rest) false P.budgeted))
          (Still P.budgeted (seqExits (node :: rest))) s first.2.1 first.2.2 :=
        (emitNode_wrote node hs hsound.1 hfirst).mono (fun _ h => h) quiet_left still_left
      split at h
      · rw [bind_eq_ok] at h
        obtain ⟨others, hothers, h⟩ := h
        cases h
        have hin := hnode.inLoop_eq
        have hrest := emitSeq_wrote rest (hnode.above hs) (hin ▸ hsound.2) hothers
        rw [hin] at hrest
        apply hnode.append
        exact hrest.mono (fun k hk => lt_of_lt_of_le hk hnode.next_le) quiet_right still_right
      · cases h
        exact hnode

theorem emitNode_wrote : ∀ (node : Node) {s : Emission} {out : Bool × List Word × Emission},
    s.Above done → node.Sound (inLoop s.frames) → P.emitNode done node s = .ok out →
    Wrote done (· < s.next) (Quiet (inLoop s.frames) (node.needsWrapper false P.budgeted))
      (Still P.budgeted node.exits) s out.2.1 out.2.2
  | .block index, s, out, hs, hsound, h => by
      rw [emitNode, bind_eq_ok] at h
      obtain ⟨ids, _, h⟩ := h
      cases h
      exact Wrote.cons_flat (Word.flat_of_plain rfl)
        ⟨Nat.le_add_right _ _, rfl, Closed.nil _, fun _ => avoids_nil _ _, fun _ => rfl⟩
  | .jump j, s, out, hs, hsound, h => by
      rw [emitNode, bind_eq_ok] at h
      obtain ⟨ended, hended, h⟩ := h
      cases h
      apply (emitJump_wrote hs hended).mono
      · intro k hk
        exact hk
      · intro hq
        rcases hq with hin | hneeds
        · constructor
          · intro hleave
            rw [hsound hleave] at hin
            cases hin
          · exact Or.inl hin
        · simp only [Node.needsWrapper, Bool.not_false, Bool.and_true, Bool.or_eq_false_iff,
            beq_eq_false_iff_ne] at hneeds
          exact ⟨hneeds.2, Or.inr hneeds.1⟩
      · intro hstill
        exact ⟨hstill.1, by simpa [Node.exits] using hstill.2⟩
  | .guard code body, s, out, hs, hsound, h => by
      have hdone := hs.next
      rw [emitNode, bind_eq_ok] at h
      obtain ⟨held, hheld, h⟩ := h
      cases h
      have habove : Emission.Above ⟨s.next + 4, .selection (s.next + 3) :: s.frames⟩ done :=
        hs.push (show done < s.next + 3 by omega) (by omega)
      have harm := emitArm_wrote (fun k => k = s.next + 3 ∨ k < s.next)
        (fun inside hinside => emitSeq_wrote body habove hsound hinside)
        (fun k hk => by show k < s.next + 4; omega) (fun _ => by omega) (by omega) hheld
      have hguarded := harm.selection (s.next + 1) (show done < s.next + 2 by omega)
        (show done < s.next + 3 by omega) (by omega)
      have hrun : (Word.notEqual (s.next + 1) s.next code).Flat done := Word.flat_of_plain rfl
      have hload : (Word.load s.next).Flat done := Word.flat_of_plain rfl
      exact (hguarded.cons_flat hrun).cons_flat hload
  | .branch source taken fall merged reset, s, out, hs, hsound, h => by
      have hdone := hs.next
      rw [emitNode, bind_eq_ok] at h
      obtain ⟨condition, _, h⟩ := h
      rw [bind_eq_ok] at h
      obtain ⟨first, hfirst, h⟩ := h
      rw [bind_eq_ok] at h
      obtain ⟨second, hsecond, h⟩ := h
      cases h
      set merge := s.next + condition.2 with hmerge
      have htaken := armLabel_spec taken merge (merge + 1) (Nat.lt_succ_self merge)
      set onTaken := armLabel taken merge (merge + 1) with honTaken
      have hfall := armLabel_spec fall merge onTaken.2 (by omega)
      set onFall := armLabel fall merge onTaken.2 with honFall
      have habove : Emission.Above ⟨onFall.2, .selection merge :: s.frames⟩ done :=
        hs.push (show done < merge by omega) (by omega)
      have harm := (emitArm_wrote (fun k => k = merge ∨ k < s.next)
        (fun inside hinside => emitSeq_wrote taken habove hsound.1 hinside)
        (fun k hk => by show k < onFall.2; omega) (fun hne => by have := htaken.2.2 hne; omega)
        (by omega) hfirst)
      have hin : inLoop first.2.frames = inLoop s.frames := harm.inLoop_eq
      have harm' := (emitArm_wrote (fun k => k = merge ∨ k < s.next)
        (fun inside hinside => emitSeq_wrote fall (harm.above habove) (hin ▸ hsound.2) hinside)
        (fun k hk => lt_of_lt_of_le (show k < onFall.2 by omega) harm.next_le)
        (fun hne => by have := hfall.2.2 hne; omega) (by omega) hsecond)
      change Wrote _ _ (Quiet (inLoop first.2.frames) _) _ _ _ _ at harm'
      rw [hin] at harm'
      have hboth : Wrote done (fun k => k = merge ∨ k < s.next)
          (Quiet (inLoop s.frames)
            ((Node.branch source taken fall merged reset).needsWrapper false P.budgeted))
          (Still P.budgeted (Node.branch source taken fall merged reset).exits) _ _ _ :=
        (harm.mono (fun _ h => h) quiet_left still_left).append
          (harm'.mono (fun _ h => h) quiet_right still_right)
      have hselection := hboth.selection condition.1 (show done < onTaken.1 by omega)
        (show done < onFall.1 by omega) (by omega)
      have hcondition : (Word.condition condition.1 source).Flat done := Word.flat_of_plain rfl
      have hall := ((resetWords_wrote reset s).append (hselection.cons_flat hcondition)).append
        (unreachable_wrote merged _)
      simpa only [List.cons_append, List.nil_append, List.append_assoc] using hall
  | .loop body routes next reset, s, out, hs, hsound, h => by
      obtain ⟨exited, words, mid, routed, hloop, hexited, hrouted, hout⟩ :=
        emitNode_loop hs (fun habove hbody => emitSeq_wrote body habove hsound.1 hbody) h
      rw [hout]
      have hroutes := emitRoutes_wrote (hloop.above hs) hrouted
      rw [hloop.inLoop_eq] at hroutes
      exact (hloop.mono (fun _ h => h) (fun _ => trivial) (fun h => h)).append
        (hroutes.mono (fun k hk => lt_of_lt_of_le hk hloop.next_le)
          (routes_quiet hsound.2 hexited) (routes_still hsound.2 hexited))
  | .select arms otherwise merged, s, out, hs, hsound, h => by
      rw [emitNode] at h
      exact emitSelect_wrote arms hs hsound.1
        (fun habove hin hother => hin ▸ emitSeq_wrote otherwise habove (hin ▸ hsound.2) hother) h

theorem emitSelect_wrote : ∀ (arms : List (Nat × List Node)) {otherwise : Emission → Written}
    {otherwiseEmpty merged needs exits : Bool} {s : Emission} {out : Bool × List Word × Emission},
    s.Above done → ArmsSound (inLoop s.frames) arms →
    (∀ {s' : Emission} {out' : Bool × List Word × Emission}, s'.Above done →
      inLoop s'.frames = inLoop s.frames → otherwise s' = .ok out' →
      Wrote done (· < s'.next) (Quiet (inLoop s.frames) needs) (Still P.budgeted exits) s' out'.2.1
        out'.2.2) →
    P.emitSelect done arms otherwise otherwiseEmpty merged s = .ok out →
    Wrote done (· < s.next) (Quiet (inLoop s.frames) (armsNeedWrapper arms P.budgeted || needs))
      (Still P.budgeted (armsExit arms || exits)) s out.2.1 out.2.2
  | [], otherwise, _, _, _, _, s, out, hs, _, hother, h => by
      rw [emitSelect] at h
      exact hother hs rfl h
  | (code, arm) :: rest, otherwise, otherwiseEmpty, merged, needs, exits, s, out, hs, hsound,
      hother, h => by
      have hdone := hs.next
      rw [emitSelect, bind_eq_ok] at h
      obtain ⟨first, hfirst, h⟩ := h
      rw [bind_eq_ok] at h
      obtain ⟨second, hsecond, h⟩ := h
      cases h
      have hhit := armLabel_spec arm (s.next + 2) (s.next + 3) (Nat.lt_succ_self _)
      set onHit := armLabel arm (s.next + 2) (s.next + 3) with honHit
      set nothing := rest.isEmpty && otherwiseEmpty with hnothing
      set inside : Emission :=
        ⟨if nothing then onHit.2 else onHit.2 + 1, .selection (s.next + 2) :: s.frames⟩ with hinside
      have hnext : onHit.2 ≤ inside.next := by
        rw [hinside]
        show onHit.2 ≤ if nothing then onHit.2 else onHit.2 + 1
        split <;> omega
      have habove : inside.Above done :=
        hs.push (show done < s.next + 2 by omega) (lt_of_lt_of_le (by omega) hnext)
      have harm := emitArm_wrote (fun k => k = s.next + 2 ∨ k < s.next)
        (fun out hout => emitSeq_wrote arm habove hsound.1 hout)
        (fun k hk => lt_of_lt_of_le (show k < onHit.2 by omega) hnext)
        (fun hne => by have := hhit.2.2 hne; omega) (by omega) hfirst
      have hin : inLoop first.2.frames = inLoop s.frames := harm.inLoop_eq
      have harm' := emitArm_wrote (fun k => k = s.next + 2 ∨ k < s.next)
        (fun out hout => emitSelect_wrote rest (harm.above habove) (hin ▸ hsound.2)
          (fun habove' hin' hout' => hin ▸ hother habove' (hin'.trans hin) hout') hout)
        (fun k hk => lt_of_lt_of_le (show k < onHit.2 by omega) (hnext.trans harm.next_le))
        (fun hne => by rw [if_neg (by rw [hne]; exact Bool.false_ne_true)]; omega) (by omega) hsecond
      change Wrote _ _ (Quiet (inLoop first.2.frames) _) _ _ _ _ at harm'
      rw [hin] at harm'
      have hboth : Wrote done (fun k => k = s.next + 2 ∨ k < s.next)
          (Quiet (inLoop s.frames) (armsNeedWrapper ((code, arm) :: rest) P.budgeted || needs))
          (Still P.budgeted (armsExit ((code, arm) :: rest) || exits)) _ _ _ :=
        (harm.mono (fun _ h => h) (fun h => quiet_left (quiet_left h))
          (fun h => still_left (still_left h))).append
          (harm'.mono (fun _ h => h) (fun h => quiet_right (Bool.or_assoc _ _ _ ▸ h))
            (fun h => still_right (Bool.or_assoc _ _ _ ▸ h)))
      have hmiss : done < if nothing then s.next + 2 else onHit.2 := by split <;> omega
      have hselection := hboth.selection (s.next + 1) (show done < onHit.1 by omega) hmiss
        (le_trans (show s.next ≤ onHit.2 by omega) hnext)
      have hequal : (Word.equal (s.next + 1) s.next code).Flat done := Word.flat_of_plain rfl
      have hload : (Word.load s.next).Flat done := Word.flat_of_plain rfl
      have hall := ((hselection.cons_flat hequal).cons_flat hload).append
        (unreachable_wrote merged _)
      simpa only [List.cons_append, List.nil_append, List.append_assoc] using hall

end

/-! ## The top level -/

theorem opensAt_of_flat {held : List Nat} : ∀ {words : List Word},
    (∀ w ∈ words, ∀ held, w.effect.nest held = held) →
    ∀ o ∈ opensAt Word.effect done held words, o = held
  | [], _, o, ho => by cases ho
  | w :: words, hwords, o, ho => by
      have hrest : ∀ o ∈ opensAt Word.effect done held words, o = held :=
        opensAt_of_flat (fun w' hw' => hwords w' (List.mem_cons_of_mem _ hw'))
      rw [opensAt, hwords w List.mem_cons_self] at ho
      split at ho
      · rcases List.mem_cons.mp ho with ho | ho
        · exact ho
        · exact hrest o ho
      · exact hrest o ho

theorem emitJump_top {j : Jump} {out : List Word × Emission} (hs : s.Above done)
    (h : P.emitJump done s j = .ok out) {held : List Nat} :
    ∀ o ∈ opensAt Word.effect done held out.1, o = held := by
  by_cases hj : j = .leave ∨ j = .exit
  · have hflat : ∀ w ∈ out.1, ∀ held, w.effect.nest held = held := by
      rcases hj with rfl | rfl
      · rw [emitJump] at h
        cases h
        simp [Word.effect, Effect.nest]
      · rw [emitJump] at h
        cases h
        simp [emitExit, Word.effect, Effect.nest]
    exact opensAt_of_flat hflat
  · have havoids := (emitJump_wrote hs h).avoids
      ⟨fun hleave => hj (Or.inl hleave), Or.inr (fun hexit => hj (Or.inr hexit))⟩
    rw [havoids.opensAt held]
    intro o ho
    cases ho

/-- The last node of a segment whose plan needs no wrapper: its own jump, or the one its loop's
merge makes, is outside every construct. -/
theorem emitNode_top {node : Node} {out : Bool × List Word × Emission} (hs : s.Above done)
    (hframes : s.frames = []) (hsound : node.Sound false) (htop : node.Unrouted)
    (hneeds : node.needsWrapper true P.budgeted = false) (h : P.emitNode done node s = .ok out)
    {held : List Nat} (hheld : ∀ m ∈ held, m < s.next) :
    ∀ o ∈ opensAt Word.effect done held out.2.1, o = held := by
  have hin : inLoop s.frames = false := by
    rw [hframes]
    rfl
  have hquiet : node.needsWrapper false P.budgeted = false →
      ∀ o ∈ opensAt Word.effect done held out.2.1, o = held := by
    intro hfalse o ho
    rw [((emitNode_wrote node hs (hin ▸ hsound) h).avoids (Or.inr hfalse)).opensAt held] at ho
    cases ho
  cases node with
  | block index => exact hquiet rfl
  | branch source taken fall merged reset => exact hquiet hneeds
  | guard code body => exact hquiet hneeds
  | select arms otherwise merged => exact hquiet hneeds
  | jump j =>
      rw [emitNode, bind_eq_ok] at h
      obtain ⟨ended, hended, h⟩ := h
      cases h
      exact emitJump_top hs hended
  | loop body routes next reset =>
      cases next with
      | true =>
          apply hquiet
          simpa [Node.needsWrapper] using hneeds
      | false =>
          obtain ⟨exited, words, mid, routed, hloop, hexited, hrouted, hout⟩ :=
            emitNode_loop hs (fun habove hbody => emitSeq_wrote body habove hsound.1 hbody) h
          have hroutes : routes = [] := htop
          rw [hout, opensAt_append, (hloop.avoids trivial).opensAt held, List.nil_append,
            hloop.closed held hheld]
          rw [hroutes, List.append_nil] at hrouted
          cases exited with
          | false =>
              cases hrouted
              exact opensAt_of_flat (by simp [Word.effect, Effect.nest])
          | true =>
              rw [if_pos rfl, emitRoutes, if_pos (by rfl), bind_eq_ok] at hrouted
              obtain ⟨last, hlast, hrouted⟩ := hrouted
              cases hrouted
              exact emitJump_top (hloop.above hs) hlast

theorem emitSeq_top : ∀ (seq : List Node) {s : Emission} {out : Bool × List Word × Emission},
    s.Above done → s.frames = [] → SeqSound false seq → (∀ node ∈ seq, node.Unrouted) →
    needsWrapper seq true P.budgeted = false → P.emitSeq done seq s = .ok out →
    ∀ {held : List Nat}, (∀ m ∈ held, m < s.next) →
    ∀ o ∈ opensAt Word.effect done held out.2.1, o = held
  | [], s, out, _, _, _, _, _, h, held, _ => by
      rw [emitSeq] at h
      cases h
      exact opensAt_of_flat (fun w hw => by cases hw)
  | node :: rest, s, out, hs, hframes, hsound, htop, hneeds, h, held, hheld => by
      have hin : inLoop s.frames = false := by
        rw [hframes]
        rfl
      obtain ⟨hnode, hrest⟩ := Bool.or_eq_false_iff.mp hneeds
      rw [emitSeq, bind_eq_ok] at h
      obtain ⟨first, hfirst, h⟩ := h
      have hwrote := emitNode_wrote node hs (hin ▸ hsound.1) hfirst
      have hfirstTop : ∀ o ∈ opensAt Word.effect done held first.2.1, o = held := by
        cases rest with
        | nil =>
            exact emitNode_top hs hframes hsound.1 (htop node List.mem_cons_self) hnode hfirst hheld
        | cons other rest =>
            intro o ho
            rw [(hwrote.avoids (Or.inr hnode)).opensAt held] at ho
            cases ho
      split at h
      · rw [bind_eq_ok] at h
        obtain ⟨others, hothers, h⟩ := h
        cases h
        have hmid : first.2.2.frames = [] := by
          have := hwrote.bare
          rw [hframes] at this
          exact List.map_eq_nil_iff.mp this
        have hrestTop := emitSeq_top rest (hwrote.above hs) hmid hsound.2
          (fun node hnode => htop node (List.mem_cons_of_mem _ hnode)) hrest hothers
          (fun m hm => lt_of_lt_of_le (hheld m hm) hwrote.next_le)
        intro o ho
        rw [opensAt_append, hwrote.closed held hheld] at ho
        rcases List.mem_append.mp ho with ho | ho
        · exact hfirstTop o ho
        · exact hrestTop o ho
      · cases h
        exact hfirstTop

/-- What is open around the segment: the selection on the wave not having ended, where the segment is
not the program's first. -/
def around (first : Bool) (n : Nat) : List Nat := if first then [] else [n + 3]

theorem emitSkip_spec (first : Bool) (n : Nat) :
    nesting Word.effect [] (P.emitSkip first n).1 = around first n ∧
      Avoids Word.effect (P.emitSkip first n).2 (P.emitSkip first n).1 ∧
      ∀ m ∈ around first n, m < (P.emitSkip first n).2 := by
  cases first with
  | true => simp [emitSkip, around]
  | false => simp [emitSkip, around, Word.effect, Effect.nest, Effect.targets]

theorem emit_top {plan : Plan} {first : Bool} {n : Nat} {e : Emitted} (hplan : plan.Ok)
    (hneeds : needsWrapper plan.seq true P.budgeted = false) (h : P.emit plan first n = .ok e) :
    nesting Word.effect [] e.before = around first n ∧
      ∀ o ∈ opensAt Word.effect e.done [] e.words, o = around first n := by
  obtain ⟨hnest, havoids, hbelow⟩ := emitSkip_spec (P := P) first n
  rw [emit, hneeds, bind_eq_ok] at h
  obtain ⟨body, hbody, h⟩ := h
  cases h
  set skip := P.emitSkip first n with hskip
  have habove : Emission.Above ⟨skip.2 + 1, []⟩ skip.2 := by
    constructor
    · exact Nat.lt_succ_self _
    · exact List.forall_mem_nil _
  have hheld : ∀ m ∈ around first n, m < skip.2 + 1 := fun m hm => Nat.lt_succ_of_lt (hbelow m hm)
  have hwrote := emitSeq_wrote plan.seq habove hplan.sound hbody
  have htop := emitSeq_top plan.seq habove rfl hplan.sound hplan.top hneeds hbody hheld
  have hnested : nesting Word.effect (around first n) body.2.1 = around first n :=
    hwrote.closed _ hheld
  have hend : ∀ o ∈ opensAt Word.effect skip.2 (around first n)
      ((if body.1 then [Word.branch skip.2] else []) ++ Word.label skip.2 ::
        (if first then [] else [.branch (n + 3), .label (n + 3)])), o = around first n := by
    cases first <;> cases body.1 <;>
      simp [skip, emitSkip, around, opensAt, Word.effect, Effect.targets]
  constructor
  · simp only [Bool.false_eq_true, if_false, List.append_nil, nesting_append, hnest, hnested]
    split <;> rfl
  · intro o ho
    simp only [Emitted.words, Bool.false_eq_true, if_false, List.append_nil, List.append_assoc,
      opensAt_append, havoids.opensAt, List.nil_append, hnest, hnested] at ho
    rcases List.mem_append.mp ho with ho | ho
    · exact htop o ho
    · exact hend o (by rw [opensAt_append]; exact ho)

/-- In a segment whose plan needs no wrapper, with a loop budget or without one, every branch to the
label of its end is where that label is, outside every construct of the segment; so where a construct
holds one, the plan needs a wrapper. -/
theorem emit_done_at_top (P : Emitter) (fuel : Nat) (d : Decode) (all : List Block) (low high : Nat)
    (plan : Plan) (first : Bool) (n : Nat) (e : Emitted)
    (hplan : shape fuel d all low high = .ok (.ok plan)) (hemit : P.emit plan first n = .ok e) :
    (needsWrapper plan.seq true P.budgeted = false →
      nesting Word.effect [] e.before = around first n ∧
      ∀ o ∈ opensAt Word.effect e.done [] e.words, o = around first n) ∧
    ((∃ o ∈ opensAt Word.effect e.done [] e.words, o ≠ around first n) →
      needsWrapper plan.seq true P.budgeted = true) := by
  have htop := fun hneeds => emit_top (shape_ok hplan) hneeds hemit
  constructor
  · exact htop
  · intro ⟨o, ho, hne⟩
    by_contra hneeds
    exact hne ((htop (Bool.eq_false_iff.mpr hneeds)).2 o ho)

/-- A loop that a selection inside it leaves, and a block that ends the program. -/
def loopBlocks : List Block :=
  [⟨0, 0, 1, .fallthrough 4⟩, ⟨4, 1, 2, .branch 12 8⟩, ⟨8, 2, 3, .jump 4⟩, ⟨12, 3, 4, .ended⟩]

/-- Each block as one word, without a loop budget. -/
def wordEach : Emitter := ⟨1, false, fun _ => .ok 0, fun _ _ => .ok (0, 0), fun _ => 0⟩

def writtenBare : Except TranslateError (Except Refusal Plan) → Bool
  | .ok (.ok plan) =>
      plan.seq.any (fun | .loop .. => true | _ => false) &&
        !needsWrapper plan.seq true wordEach.budgeted && (wordEach.emit plan false 7).isOk
  | _ => false

theorem emit_done_at_top_loop : ∃ plan e,
    shape 50 ⟨[], trivial⟩ loopBlocks 0 4 = .ok (.ok plan) ∧ wordEach.emit plan false 7 = .ok e ∧
      nesting Word.effect [] e.before = [10] ∧
        ∀ o ∈ opensAt Word.effect e.done [] e.words, o = [10] := by
  have hbare : writtenBare (shape 50 ⟨[], trivial⟩ loopBlocks 0 4) = true := by decide +kernel
  obtain ⟨plan, hplan⟩ : ∃ plan, shape 50 ⟨[], trivial⟩ loopBlocks 0 4 = .ok (.ok plan) := by
    cases hshape : shape 50 ⟨[], trivial⟩ loopBlocks 0 4 with
    | error e =>
        rw [hshape] at hbare
        cases hbare
    | ok shaped =>
        cases shaped with
        | error e =>
            rw [hshape] at hbare
            cases hbare
        | ok plan => exact ⟨plan, rfl⟩
  rw [hplan] at hbare
  simp only [writtenBare, Bool.and_eq_true, Bool.not_eq_true'] at hbare
  obtain ⟨⟨-, hneeds⟩, hok⟩ := hbare
  cases hemit : wordEach.emit plan false 7 with
  | error e =>
      rw [hemit] at hok
      cases hok
  | ok e =>
      have htop := emit_done_at_top wordEach 50 ⟨[], trivial⟩ loopBlocks 0 4 plan false 7 e hplan hemit
      exact ⟨plan, e, hplan, hemit, htop.1 hneeds⟩

end Emitter

end Orbistoun.Translate.Structured
