import Mathlib.Algebra.BigOperators.Group.Finset.Basic
import Mathlib.Logic.Relation
import Mathlib.Tactic

/-! # An iterative depth-first walk

A walk over a graph given by its successor lists, with an explicit stack of vertices and of how
many successors of each have been looked at. It gives the vertices in the order they are finished,
and the edges met while their target was still on the stack. The order so far, followed by the
stack from its top, is a line that steps only insert into: what comes before what never changes.
-/

namespace Orbistoun.Lib.Walk

variable {V : Type*} [DecidableEq V]

inductive Mark where
  | unseen
  | opened
  | done
  deriving DecidableEq, Repr

structure State (V : Type*) where
  mark : V → Mark
  stack : List (V × Nat)
  postorder : List V
  retreating : List (V × V)

def start (entry : V) : State V :=
  ⟨Function.update (fun _ => .unseen) entry .opened, [(entry, 0)], [], []⟩

/-- One turn of the walk: the next successor of the vertex on top, or that vertex finished. -/
def step (succ : V → List V) (s : State V) : Option (State V) :=
  match s.stack with
  | [] => none
  | (node, next) :: rest =>
      match (succ node)[next]? with
      | some target =>
          match s.mark target with
          | .unseen => some { s with
              mark := Function.update s.mark target .opened
              stack := (target, 0) :: (node, next + 1) :: rest }
          | .opened => some { s with
              stack := (node, next + 1) :: rest
              retreating := s.retreating ++ [(node, target)] }
          | .done => some { s with stack := (node, next + 1) :: rest }
      | none => some { s with
          mark := Function.update s.mark node .done
          postorder := s.postorder ++ [node]
          stack := rest }

def run (succ : V → List V) : Nat → State V → State V
  | 0, s => s
  | n + 1, s =>
      match step succ s with
      | none => s
      | some s' => run succ n s'

def walk (succ : V → List V) (nodes : List V) (entry : V) : State V :=
  run succ (nodes.map (fun v => (succ v).length + 1)).sum (start entry)

theorem step_cases {succ : V → List V} {s s' : State V} (h : step succ s = some s') :
    ∃ node next rest, s.stack = (node, next) :: rest ∧
      ((∃ target, (succ node)[next]? = some target ∧ s.mark target = .unseen ∧
          s' = { s with
            mark := Function.update s.mark target .opened
            stack := (target, 0) :: (node, next + 1) :: rest }) ∨
        (∃ target, (succ node)[next]? = some target ∧ s.mark target = .opened ∧
          s' = { s with
            stack := (node, next + 1) :: rest
            retreating := s.retreating ++ [(node, target)] }) ∨
        (∃ target, (succ node)[next]? = some target ∧ s.mark target = .done ∧
          s' = { s with stack := (node, next + 1) :: rest }) ∨
        ((succ node)[next]? = none ∧
          s' = { s with
            mark := Function.update s.mark node .done
            postorder := s.postorder ++ [node]
            stack := rest })) := by
  unfold step at h
  cases hstack : s.stack with
  | nil => simp [hstack] at h
  | cons top rest =>
    obtain ⟨node, next⟩ := top
    refine ⟨node, next, rest, rfl, ?_⟩
    simp only [hstack] at h
    cases htarget : (succ node)[next]? with
    | none =>
      simp only [htarget, Option.some.injEq] at h
      exact Or.inr (Or.inr (Or.inr ⟨rfl, h.symm⟩))
    | some target =>
      simp only [htarget] at h
      cases hmark : s.mark target with
      | unseen =>
        simp only [hmark, Option.some.injEq] at h
        exact Or.inl ⟨target, rfl, hmark, h.symm⟩
      | opened =>
        simp only [hmark, Option.some.injEq] at h
        exact Or.inr (Or.inl ⟨target, rfl, hmark, h.symm⟩)
      | done =>
        simp only [hmark, Option.some.injEq] at h
        exact Or.inr (Or.inr (Or.inl ⟨target, rfl, hmark, h.symm⟩))

/-! ## The line -/

/-- The vertices met, in the order they are or will be finished. -/
def line (s : State V) : List V := s.postorder ++ s.stack.map Prod.fst

def Before (l : List V) (a b : V) : Prop := [a, b].Sublist l

omit [DecidableEq V] in
theorem Before.mono {l l' : List V} {a b : V} (h : Before l a b) (hl : l.Sublist l') : Before l' a b :=
  h.trans hl

theorem idxOf_lt_of_before {l : List V} {a b : V} (hnodup : l.Nodup) (h : Before l a b) :
    l.idxOf a < l.idxOf b := by
  induction l with
  | nil => simp [Before] at h
  | cons c l ih =>
    rw [List.nodup_cons] at hnodup
    cases h with
    | cons _ h =>
      have hac : c ≠ a := fun heq => hnodup.1 (heq ▸ h.subset (by simp))
      have hbc : c ≠ b := fun heq => hnodup.1 (heq ▸ h.subset (by simp))
      rw [List.idxOf_cons_ne _ hac, List.idxOf_cons_ne _ hbc]
      exact Nat.succ_lt_succ (ih hnodup.2 h)
    | cons_cons _ h =>
      have hab : a ≠ b := fun heq => hnodup.1 (heq ▸ h.subset (by simp))
      rw [List.idxOf_cons_self, List.idxOf_cons_ne _ hab]
      exact Nat.succ_pos _

theorem mem_of_before {l r : List V} {a b : V} (hnodup : (l ++ b :: r).Nodup)
    (h : Before (l ++ b :: r) a b) : a ∈ l := by
  have hlt := idxOf_lt_of_before hnodup h
  have hb : b ∉ l := fun hin => (List.disjoint_of_nodup_append hnodup) hin (List.mem_cons_self ..)
  by_contra ha
  rw [List.idxOf_append_of_notMem ha, List.idxOf_append_of_notMem hb, List.idxOf_cons_self] at hlt
  omega

omit [DecidableEq V] in
theorem Before.reverse {l : List V} {a b : V} (h : Before l a b) : Before l.reverse b a := by
  have hreverse := List.Sublist.reverse h
  simpa [Before] using hreverse

omit [DecidableEq V] in
theorem before_append {l l' : List V} {a b : V} (ha : a ∈ l) (hb : b ∈ l') :
    Before (l ++ l') a b := by
  have h := List.Sublist.append (List.singleton_sublist.mpr ha) (List.singleton_sublist.mpr hb)
  exact h

/-- The successor of `u` has been looked at. -/
def Scanned (succ : V → List V) (s : State V) (u v : V) : Prop :=
  (u ∈ s.postorder ∧ v ∈ succ u) ∨ ∃ next, (u, next) ∈ s.stack ∧ v ∈ (succ u).take next

/-- An edge to a vertex finished before its source. -/
def Forward (succ : V → List V) (l : List V) (u v : V) : Prop := v ∈ succ u ∧ Before l v u

omit [DecidableEq V] in
theorem Forward.mono {succ : V → List V} {l l' : List V} {u v : V} (h : Forward succ l u v)
    (hl : l.Sublist l') : Forward succ l' u v :=
  ⟨h.1, h.2.mono hl⟩

/-- An edge back to a vertex still on the stack, or to its own source. -/
structure Retreat (succ : V → List V) (l : List V) (u v : V) : Prop where
  edge : v ∈ succ u
  mem : u ∈ l
  after : v = u ∨ Before l u v
  path : Relation.ReflTransGen (Forward succ l) v u

omit [DecidableEq V] in
theorem Retreat.mono {succ : V → List V} {l l' : List V} {u v : V} (h : Retreat succ l u v)
    (hl : l.Sublist l') : Retreat succ l' u v where
  edge := h.edge
  mem := hl.subset h.mem
  after := h.after.imp_right (fun h => h.mono hl)
  path := Relation.ReflTransGen.mono (fun _ _ h => Forward.mono h hl) _ _ h.path

/-- What every state of a walk from `entry` keeps. -/
structure Inv (succ : V → List V) (entry : V) (s : State V) : Prop where
  nodup : (line s).Nodup
  done : ∀ v, s.mark v = .done ↔ v ∈ s.postorder
  opened : ∀ v, s.mark v = .opened ↔ v ∈ s.stack.map Prod.fst
  bottom : (line s).getLast? = some entry
  linked : s.stack.IsChain (fun a b => a.1 ∈ succ b.1)
  scanned : ∀ u v, Scanned succ s u v →
    Before (line s) v u ∨ (u, v) ∈ s.retreating
  retreats : ∀ p ∈ s.retreating, Retreat succ (line s) p.1 p.2
  reached : ∀ v ∈ line s, Relation.ReflTransGen (Forward succ (line s)) entry v

omit [DecidableEq V] in
theorem path_of_linked {succ : V → List V} {l : List V} :
    ∀ {top : V × Nat} {stack : List (V × Nat)},
      (top :: stack).IsChain (fun a b => a.1 ∈ succ b.1) →
      ((top :: stack).map Prod.fst).Sublist l → ∀ v ∈ (top :: stack).map Prod.fst,
        Relation.ReflTransGen (Forward succ l) v top.1 := by
  intro top stack
  induction stack generalizing top with
  | nil =>
    intro _ _ v hv
    obtain rfl : v = top.1 := by simpa using hv
    exact .refl
  | cons second rest ih =>
    intro hchain hl v hv
    rw [List.isChain_cons_cons] at hchain
    rw [List.map_cons, List.mem_cons] at hv
    cases hv with
    | inl hv => rw [hv]
    | inr hv =>
      have hrest : ((second :: rest).map Prod.fst).Sublist l :=
        (List.sublist_cons_self _ _).trans hl
      have htop : Before l top.1 second.1 := by
        apply List.Sublist.trans _ hl
        simp
      exact (ih hchain.2 hrest v hv).tail ⟨hchain.1, htop⟩

section Steps

variable {succ : V → List V} {entry : V}

theorem inv_start : Inv succ entry (start entry) where
  nodup := by simp [line, start]
  done v := by
    by_cases hv : v = entry
    · simp [start, hv]
    · simp [start, Function.update_of_ne hv]
  opened v := by
    by_cases hv : v = entry
    · simp [start, hv]
    · simp [start, hv]
  bottom := by simp [line, start]
  linked := by simp [start]
  scanned u v h := by simp [Scanned, start] at h
  retreats p h := by simp [start] at h
  reached v hv := by
    obtain rfl : v = entry := by simpa [line, start] using hv
    exact .refl

omit [DecidableEq V] in
theorem mem_line {s : State V} (hs : Inv succ entry s) (v : V) :
    v ∈ line s ↔ s.mark v ≠ .unseen := by
  rw [line, List.mem_append, ← hs.done, ← hs.opened]
  cases s.mark v <;> simp

omit [DecidableEq V] in
/-- Looking at one more successor scans that one edge. -/
theorem scanned_advance {s s' : State V} {node target : V} {next : Nat} {rest : List (V × Nat)}
    (hstack : s.stack = (node, next) :: rest) (htarget : (succ node)[next]? = some target)
    (hpost : s'.postorder = s.postorder)
    (hstack' : ∀ frame ∈ s'.stack, frame.2 = 0 ∨ frame = (node, next + 1) ∨ frame ∈ rest)
    {u v : V} (h : Scanned succ s' u v) : Scanned succ s u v ∨ (u = node ∧ v = target) := by
  cases h with
  | inl h =>
    rw [hpost] at h
    exact Or.inl (Or.inl h)
  | inr h =>
    obtain ⟨looked, hmem, hv⟩ := h
    rcases hstack' _ hmem with hzero | hnode | hrest
    · simp only at hzero
      simp [hzero] at hv
    · obtain ⟨rfl, rfl⟩ := Prod.mk.inj hnode
      rw [List.take_add_one, htarget, List.mem_append] at hv
      cases hv with
      | inl hv => exact Or.inl (Or.inr ⟨next, by simp [hstack], hv⟩)
      | inr hv => exact Or.inr ⟨rfl, by simpa using hv⟩
    · exact Or.inl (Or.inr ⟨looked, by simp [hstack, hrest], hv⟩)

/-- The first look at a vertex puts it before the one it was met from. -/
theorem inv_push {s : State V} (hs : Inv succ entry s) {node target : V} {next : Nat}
    {rest : List (V × Nat)} (hstack : s.stack = (node, next) :: rest)
    (htarget : (succ node)[next]? = some target) (hmark : s.mark target = .unseen) :
    Inv succ entry { s with
      mark := Function.update s.mark target .opened
      stack := (target, 0) :: (node, next + 1) :: rest } := by
  have hnew : target ∉ line s := by
    rw [mem_line hs]
    simp [hmark]
  have hline : line s = s.postorder ++ node :: rest.map Prod.fst := by simp [line, hstack]
  set s' : State V := { s with
    mark := Function.update s.mark target .opened
    stack := (target, 0) :: (node, next + 1) :: rest } with hs'
  have hline' : line s' = s.postorder ++ target :: node :: rest.map Prod.fst := by
    simp [line, hs']
  have hsub : (line s).Sublist (line s') := by
    rw [hline, hline']
    exact List.Sublist.append (List.Sublist.refl _) (List.sublist_cons_self _ _)
  have hedge : target ∈ succ node := List.mem_of_getElem? htarget
  have hbefore : Before (line s') target node := by
    rw [hline']
    apply List.Sublist.trans _ (List.sublist_append_right _ _)
    simp
  constructor
  · rw [hline']
    rw [hline] at hnew
    have hnodup := hs.nodup
    rw [hline] at hnodup
    exact (List.perm_middle.nodup_iff).mpr (List.nodup_cons.mpr ⟨hnew, hnodup⟩)
  · intro v
    by_cases hv : v = target
    · have hpost : target ∉ s.postorder := fun h => hnew (by rw [hline]; simp [h])
      simp [hs', hv, hpost]
    · simpa [hs', Function.update_of_ne hv] using hs.done v
  · intro v
    have hopened := hs.opened v
    rw [hstack] at hopened
    by_cases hv : v = target
    · simp [hs', hv]
    · simpa [hs', Function.update_of_ne hv, hv] using hopened
  · have hbottom := hs.bottom
    rw [hline] at hbottom
    rw [hline', ← hbottom]
    simp [List.getLast?_append, List.getLast?_cons_cons]
  · have hlinked := hs.linked
    rw [hstack] at hlinked
    apply List.IsChain.cons_cons hedge
    cases rest with
    | nil => simp
    | cons second rest => simpa using hlinked
  · intro u v hscan
    have hframes : ∀ frame ∈ s'.stack, frame.2 = 0 ∨ frame = (node, next + 1) ∨ frame ∈ rest := by
      intro frame hframe
      simp only [hs', List.mem_cons] at hframe
      rcases hframe with rfl | hframe | hframe
      · exact Or.inl rfl
      · exact Or.inr (Or.inl hframe)
      · exact Or.inr (Or.inr hframe)
    have hpost : s'.postorder = s.postorder := rfl
    cases scanned_advance hstack htarget hpost hframes hscan with
    | inl hold => exact (hs.scanned u v hold).imp_left (fun h => h.mono hsub)
    | inr hnew =>
      rw [hnew.1, hnew.2]
      exact Or.inl hbefore
  · intro p hp
    exact (hs.retreats p hp).mono hsub
  · intro v hv
    have hforward : ∀ {u}, u ∈ line s →
        Relation.ReflTransGen (Forward succ (line s')) entry u := fun hu =>
      Relation.ReflTransGen.mono (fun _ _ h => Forward.mono h hsub) _ _ (hs.reached _ hu)
    by_cases hvt : v = target
    · have hnode : node ∈ line s := by simp [hline]
      rw [hvt]
      exact (hforward hnode).tail ⟨hedge, hbefore⟩
    · apply hforward
      rw [hline'] at hv
      rw [hline]
      simpa [hvt] using hv

omit [DecidableEq V] in
/-- A look at a vertex met before leaves the line as it is. `retreating` is what it makes of the
edges back. -/
theorem inv_look {s : State V} (hs : Inv succ entry s) {node target : V} {next : Nat}
    {rest : List (V × Nat)} {retreating : List (V × V)}
    (hstack : s.stack = (node, next) :: rest) (htarget : (succ node)[next]? = some target)
    (hkept : ∀ p ∈ s.retreating, p ∈ retreating)
    (hretreats : ∀ p ∈ retreating, Retreat succ (line s) p.1 p.2)
    (hlooked : Before (line s) target node ∨ (node, target) ∈ retreating) :
    Inv succ entry { s with stack := (node, next + 1) :: rest, retreating := retreating } := by
  set s' : State V := { s with stack := (node, next + 1) :: rest, retreating := retreating } with hs'
  have hline : line s' = line s := by simp [line, hs', hstack]
  constructor
  · rw [hline]
    exact hs.nodup
  · exact hs.done
  · intro v
    have hopened := hs.opened v
    rw [hstack] at hopened
    simpa [hs'] using hopened
  · rw [hline]
    exact hs.bottom
  · have hlinked := hs.linked
    rw [hstack] at hlinked
    cases rest with
    | nil => simp [hs']
    | cons second rest => simpa [hs'] using hlinked
  · intro u v hscan
    have hframes : ∀ frame ∈ s'.stack, frame.2 = 0 ∨ frame = (node, next + 1) ∨ frame ∈ rest := by
      intro frame hframe
      simp only [hs', List.mem_cons] at hframe
      exact Or.inr hframe
    have hpost : s'.postorder = s.postorder := rfl
    rw [hline]
    cases scanned_advance hstack htarget hpost hframes hscan with
    | inl hold => exact (hs.scanned u v hold).imp_right (hkept _)
    | inr hnew =>
      rw [hnew.1, hnew.2]
      exact hlooked
  · rw [hline]
    exact hretreats
  · rw [hline]
    exact hs.reached

omit [DecidableEq V] in
theorem top_mem_line {s : State V} {node : V} {next : Nat} {rest : List (V × Nat)}
    (hstack : s.stack = (node, next) :: rest) : node ∈ line s := by
  simp [line, hstack]

omit [DecidableEq V] in
/-- A look at a vertex on the stack is an edge back: the stack is a path to it from there. -/
theorem retreat_of_opened {s : State V} (hs : Inv succ entry s) {node target : V} {next : Nat}
    {rest : List (V × Nat)} (hstack : s.stack = (node, next) :: rest)
    (htarget : (succ node)[next]? = some target) (hmark : s.mark target = .opened) :
    Retreat succ (line s) node target := by
  have hmem : target ∈ s.stack.map Prod.fst := (hs.opened target).mp hmark
  have hsub : (s.stack.map Prod.fst).Sublist (line s) := List.sublist_append_right _ _
  have hlinked := hs.linked
  rw [hstack] at hmem hsub hlinked
  constructor
  · exact List.mem_of_getElem? htarget
  · exact top_mem_line hstack
  · rw [List.map_cons, List.mem_cons] at hmem
    refine hmem.imp_right (fun hmem => ?_)
    have hbefore : Before ((node, next) :: rest |>.map Prod.fst) node target := by
      simpa [Before] using hmem
    exact hbefore.mono hsub
  · exact path_of_linked hlinked hsub target hmem

omit [DecidableEq V] in
theorem inv_retreat {s : State V} (hs : Inv succ entry s) {node target : V} {next : Nat}
    {rest : List (V × Nat)} (hstack : s.stack = (node, next) :: rest)
    (htarget : (succ node)[next]? = some target) (hmark : s.mark target = .opened) :
    Inv succ entry { s with
      stack := (node, next + 1) :: rest
      retreating := s.retreating ++ [(node, target)] } := by
  apply inv_look hs hstack htarget
  · intro p hp
    exact List.mem_append_left _ hp
  · intro p hp
    rw [List.mem_append, List.mem_singleton] at hp
    cases hp with
    | inl hp => exact hs.retreats p hp
    | inr hp =>
      rw [hp]
      exact retreat_of_opened hs hstack htarget hmark
  · exact Or.inr (by simp)

omit [DecidableEq V] in
/-- A finished vertex is before every vertex of the stack. -/
theorem inv_pass {s : State V} (hs : Inv succ entry s) {node target : V} {next : Nat}
    {rest : List (V × Nat)} (hstack : s.stack = (node, next) :: rest)
    (htarget : (succ node)[next]? = some target) (hmark : s.mark target = .done) :
    Inv succ entry { s with stack := (node, next + 1) :: rest } := by
  have hbefore : Before (line s) target node := by
    apply before_append ((hs.done target).mp hmark)
    simp [hstack]
  exact inv_look hs hstack htarget (fun _ hp => hp) hs.retreats (Or.inl hbefore)

theorem inv_finish {s : State V} (hs : Inv succ entry s) {node : V} {next : Nat}
    {rest : List (V × Nat)} (hstack : s.stack = (node, next) :: rest)
    (hnone : (succ node)[next]? = none) :
    Inv succ entry { s with
      mark := Function.update s.mark node .done
      postorder := s.postorder ++ [node]
      stack := rest } := by
  set s' : State V := { s with
    mark := Function.update s.mark node .done
    postorder := s.postorder ++ [node]
    stack := rest } with hs'
  have hline : line s' = line s := by simp [line, hs', hstack]
  have hopen := hs.opened
  have hnodup := hs.nodup
  rw [line, hstack] at hnodup
  rw [hstack] at hopen
  have hnew : node ∉ rest.map Prod.fst := by
    have hnodup' := (List.nodup_append.mp hnodup).2.1
    rw [List.map_cons, List.nodup_cons] at hnodup'
    exact hnodup'.1
  constructor
  · rw [hline]
    exact hs.nodup
  · intro v
    by_cases hv : v = node
    · simp [hs', hv]
    · simpa [hs', Function.update_of_ne hv, hv] using hs.done v
  · intro v
    by_cases hv : v = node
    · rw [hv]
      simpa [hs'] using hnew
    · simpa [hs', Function.update_of_ne hv, hv] using hopen v
  · rw [hline]
    exact hs.bottom
  · have hlinked := hs.linked
    rw [hstack] at hlinked
    exact hlinked.tail
  · intro u v hscan
    rw [hline]
    apply hs.scanned u v
    cases hscan with
    | inl hpost =>
      simp only [hs', List.mem_append, List.mem_singleton] at hpost
      cases hpost.1 with
      | inl hu => exact Or.inl ⟨hu, hpost.2⟩
      | inr hu =>
        refine Or.inr ⟨next, by simp [hstack, hu], ?_⟩
        rw [List.take_of_length_le (by rw [hu]; exact List.getElem?_eq_none_iff.mp hnone)]
        exact hpost.2
    | inr hstack' =>
      obtain ⟨looked, hmem, hv⟩ := hstack'
      exact Or.inr ⟨looked, by simp [hstack, show (u, looked) ∈ rest from hmem], hv⟩
  · rw [hline]
    exact hs.retreats
  · rw [hline]
    exact hs.reached

theorem inv_step {s s' : State V} (hs : Inv succ entry s) (h : step succ s = some s') :
    Inv succ entry s' := by
  obtain ⟨node, next, rest, hstack, hcase⟩ := step_cases h
  rcases hcase with ⟨target, htarget, hmark, rfl⟩ | ⟨target, htarget, hmark, rfl⟩ |
    ⟨target, htarget, hmark, rfl⟩ | ⟨hnone, rfl⟩
  · exact inv_push hs hstack htarget hmark
  · exact inv_retreat hs hstack htarget hmark
  · exact inv_pass hs hstack htarget hmark
  · exact inv_finish hs hstack hnone

theorem inv_run {s : State V} (hs : Inv succ entry s) (n : Nat) : Inv succ entry (run succ n s) := by
  induction n generalizing s with
  | zero => exact hs
  | succ n ih =>
    unfold run
    cases h : step succ s with
    | none => exact hs
    | some s' => exact ih (inv_step hs h)

/-! ## The end of a walk -/

/-- What is left to do: each vertex not met yet, and each successor not looked at yet. -/
def left (succ : V → List V) (nodes : Finset V) (s : State V) : Nat :=
  (∑ v ∈ nodes, if s.mark v = .unseen then (succ v).length + 1 else 0) +
    (s.stack.map (fun frame => (succ frame.1).length - frame.2 + 1)).sum

omit [DecidableEq V] in
theorem mem_nodes {nodes : Finset V} (hclosed : ∀ v ∈ nodes, ∀ u ∈ succ v, u ∈ nodes)
    (hentry : entry ∈ nodes) {s : State V} (hs : Inv succ entry s) {v : V} (hv : v ∈ line s) :
    v ∈ nodes := by
  have hpath := hs.reached v hv
  clear hv
  induction hpath with
  | refl => exact hentry
  | tail _ hedge ih => exact hclosed _ ih _ hedge.1

/-- What a sum over the vertices of one kind loses with the one that is taken out of it. -/
theorem sum_take_out {nodes : Finset V} {p q : V → Prop} [DecidablePred p] [DecidablePred q]
    (cost : V → Nat) {x : V} (hmem : x ∈ nodes) (hp : p x) (hq : ¬q x)
    (hother : ∀ v, v ≠ x → (q v ↔ p v)) :
    (∑ v ∈ nodes, if q v then cost v else 0) + cost x = ∑ v ∈ nodes, if p v then cost v else 0 := by
  have hrest : ∑ v ∈ nodes.erase x, (if q v then cost v else 0) =
      ∑ v ∈ nodes.erase x, if p v then cost v else 0 := by
    apply Finset.sum_congr rfl
    intro v hv
    simp only [hother v (Finset.ne_of_mem_erase hv)]
  rw [← Finset.sum_erase_add _ _ hmem, hrest, ← Finset.sum_erase_add _ _ hmem, if_neg hq, if_pos hp]
  omega

theorem sum_unseen_update {nodes : Finset V} {mark : V → Mark} {target : V} (cost : V → Nat)
    (hmem : target ∈ nodes) (hmark : mark target = .unseen) :
    (∑ v ∈ nodes, if Function.update mark target .opened v = .unseen then cost v else 0) +
      cost target = ∑ v ∈ nodes, if mark v = .unseen then cost v else 0 := by
  apply sum_take_out cost hmem hmark
  · simp
  · intro v hv
    rw [Function.update_of_ne hv]

theorem left_step {nodes : Finset V} (hclosed : ∀ v ∈ nodes, ∀ u ∈ succ v, u ∈ nodes)
    (hentry : entry ∈ nodes) {s s' : State V} (hs : Inv succ entry s)
    (h : step succ s = some s') : left succ nodes s' < left succ nodes s := by
  obtain ⟨node, next, rest, hstack, hcase⟩ := step_cases h
  have hlook : ∀ {target}, (succ node)[next]? = some target → next < (succ node).length :=
    fun htarget => (List.getElem?_eq_some_iff.mp htarget).choose
  rcases hcase with ⟨target, htarget, hmark, rfl⟩ | ⟨target, htarget, hmark, rfl⟩ |
    ⟨target, htarget, hmark, rfl⟩ | ⟨hnone, rfl⟩
  · have hlt := hlook htarget
    have hnode : node ∈ nodes := mem_nodes hclosed hentry hs (top_mem_line hstack)
    have hsum := sum_unseen_update (fun v => (succ v).length + 1)
      (hclosed node hnode target (List.mem_of_getElem? htarget)) hmark
    simp only [left, hstack, List.map_cons, List.sum_cons]
    omega
  · have hlt := hlook htarget
    simp only [left, hstack, List.map_cons, List.sum_cons]
    omega
  · have hlt := hlook htarget
    simp only [left, hstack, List.map_cons, List.sum_cons]
    omega
  · have hopened : s.mark node = .opened := (hs.opened node).mpr (by simp [hstack])
    have hsum : (∑ v ∈ nodes,
          if Function.update s.mark node .done v = .unseen then (succ v).length + 1 else 0) =
        ∑ v ∈ nodes, if s.mark v = .unseen then (succ v).length + 1 else 0 := by
      apply Finset.sum_congr rfl
      intro v _
      by_cases hv : v = node
      · simp [hv, hopened]
      · rw [Function.update_of_ne hv]
    simp only [left, hstack, List.map_cons, List.sum_cons, hsum]
    omega

theorem run_stops {nodes : Finset V} (hclosed : ∀ v ∈ nodes, ∀ u ∈ succ v, u ∈ nodes)
    (hentry : entry ∈ nodes) {n : Nat} {s : State V} (hs : Inv succ entry s)
    (hn : left succ nodes s ≤ n) : (run succ n s).stack = [] := by
  induction n generalizing s with
  | zero =>
    have hnil : (s.stack.map (fun frame => (succ frame.1).length - frame.2 + 1)).sum = 0 := by
      unfold left at hn
      omega
    cases hstack : s.stack with
    | nil => exact hstack
    | cons top rest => simp [hstack] at hnil
  | succ n ih =>
    unfold run
    cases h : step succ s with
    | none =>
      unfold step at h
      split at h
      · assumption
      · split at h
        · split at h <;> cases h
        · cases h
    | some s' =>
      have hlt := left_step hclosed hentry hs h
      exact ih (inv_step hs h) (by omega)

end Steps

/-- What a finished walk gives: the vertices reached in the order they were finished, and the edges
back, each to a vertex there is a forward path from. -/
structure Walked (succ : V → List V) (entry : V) (postorder : List V)
    (retreating : List (V × V)) : Prop where
  nodup : postorder.Nodup
  last : postorder.getLast? = some entry
  mem : ∀ v, v ∈ postorder ↔ Relation.ReflTransGen (fun u v => v ∈ succ u) entry v
  edge : ∀ u ∈ postorder, ∀ v ∈ succ u, Before postorder v u ∨ (u, v) ∈ retreating
  retreats : ∀ p ∈ retreating, Retreat succ postorder p.1 p.2
  reached : ∀ v ∈ postorder, Relation.ReflTransGen (Forward succ postorder) entry v

namespace Walked

variable {succ : V → List V} {entry : V} {postorder : List V} {retreating : List (V × V)}

omit [DecidableEq V] in
theorem of_inv {s : State V} (hs : Inv succ entry s) (hstack : s.stack = []) :
    Walked succ entry s.postorder s.retreating := by
  have hline : line s = s.postorder := by simp [line, hstack]
  have hedge : ∀ u ∈ s.postorder, ∀ v ∈ succ u, Before s.postorder v u ∨ (u, v) ∈ s.retreating := by
    intro u hu v hv
    have hscanned := hs.scanned u v (Or.inl ⟨hu, hv⟩)
    rwa [hline] at hscanned
  have hretreats := hs.retreats
  have hreached := hs.reached
  have hbottom := hs.bottom
  rw [hline] at hretreats hreached hbottom
  constructor
  · rw [← hline]
    exact hs.nodup
  · exact hbottom
  · intro v
    constructor
    · intro hv
      exact Relation.ReflTransGen.mono (fun _ _ h => h.1) _ _ (hreached v hv)
    · intro hpath
      induction hpath with
      | refl => exact List.mem_of_getLast? hbottom
      | tail _ hv ih =>
        cases hedge _ ih _ hv with
        | inl hbefore => exact hbefore.subset (by simp)
        | inr hback =>
          cases (hretreats _ hback).after with
          | inl heq =>
            simp only at heq
            rw [heq]
            exact ih
          | inr hafter => exact hafter.subset (by simp)
  · exact hedge
  · exact hretreats
  · exact hreached

end Walked

/-- The walk ends, and gives what it should. -/
theorem walk_walked {succ : V → List V} {nodes : List V} {entry : V} (hnodup : nodes.Nodup)
    (hclosed : ∀ v ∈ nodes, ∀ u ∈ succ v, u ∈ nodes) (hentry : entry ∈ nodes) :
    Walked succ entry (walk succ nodes entry).postorder (walk succ nodes entry).retreating := by
  apply Walked.of_inv (inv_run inv_start _)
  have hclosed' : ∀ v ∈ nodes.toFinset, ∀ u ∈ succ v, u ∈ nodes.toFinset := by
    simpa using hclosed
  have hentry' : entry ∈ nodes.toFinset := List.mem_toFinset.mpr hentry
  apply run_stops hclosed' hentry' inv_start
  have htotal : ∑ v ∈ nodes.toFinset, ((succ v).length + 1) =
      (nodes.map (fun v => (succ v).length + 1)).sum := List.sum_toFinset _ hnodup
  have hsum : (∑ v ∈ nodes.toFinset,
        if (start entry).mark v = .unseen then (succ v).length + 1 else 0) +
      ((succ entry).length + 1) = (nodes.map (fun v => (succ v).length + 1)).sum := by
    rw [← htotal]
    exact sum_unseen_update (fun v => (succ v).length + 1) hentry' rfl
  have hstack : ((start entry).stack.map
      (fun frame => (succ frame.1).length - frame.2 + 1)).sum = (succ entry).length + 1 := by
    simp [start]
  unfold left
  omega

end Orbistoun.Lib.Walk
