import Orbistoun.Translate.Blocks.Basic

/-! # What a split gives

The boundaries of an accepted list are its leaders: its start, the targets of its
branches, and what follows a branch or a barrier. Every block runs from one leader
to the next.
-/

namespace Orbistoun.Translate

/-! ## Laid out lists -/

section Laid

variable {l : List Instruction} {start : Nat}

theorem Laid.start_le (h : Laid start l) {n : Nat} (hn : n < l.length) : start ≤ l[n].offset := by
  induction l generalizing start n with
  | nil => simp at hn
  | cons i rest ih =>
      obtain ⟨hi, -, -, hrest⟩ := h
      cases n with
      | zero => simp [hi]
      | succ n =>
          have := ih hrest (by simpa using hn)
          simp only [List.getElem_cons_succ]
          omega

/-- A later instruction starts at or past the end of an earlier one. -/
theorem Laid.end_le (h : Laid start l) {m n : Nat} (hmn : m < n) (hn : n < l.length) :
    l[m].offset + l[m].length ≤ l[n].offset := by
  induction l generalizing start m n with
  | nil => simp at hn
  | cons i rest ih =>
      obtain ⟨hi, -, -, hrest⟩ := h
      cases n with
      | zero => omega
      | succ n =>
          have hn' : n < rest.length := by simpa using hn
          cases m with
          | zero => simpa [hi] using hrest.start_le hn'
          | succ m => simpa using ih hrest (by omega) hn'

theorem Laid.next (h : Laid start l) {n : Nat} (hn : n + 1 < l.length) :
    l[n + 1].offset = l[n].offset + l[n].length := by
  induction l generalizing start n with
  | nil => simp at hn
  | cons i rest ih =>
      obtain ⟨hi, -, -, hrest⟩ := h
      cases n with
      | zero =>
          cases rest with
          | nil => simp at hn
          | cons j rest => simp [hi, hrest.1]
      | succ n => simpa using ih hrest (by simpa using hn)

theorem Laid.length_pos (h : Laid start l) {n : Nat} (hn : n < l.length) : 0 < l[n].length := by
  induction l generalizing start n with
  | nil => simp at hn
  | cons i rest ih =>
      obtain ⟨-, hi, -, hrest⟩ := h
      cases n with
      | zero => simpa using hi
      | succ n => simpa using ih hrest (by simpa using hn)

theorem Laid.offset_inj (h : Laid start l) {m n : Nat} (hm : m < l.length) (hn : n < l.length)
    (heq : l[m].offset = l[n].offset) : m = n := by
  have hlt : ∀ {a b : Nat} (hb : b < l.length) (hab : a < b), l[a].offset < l[b].offset := by
    intro a b hb hab
    have := h.end_le hab hb
    have := h.length_pos (n := a) (by omega)
    omega
  rcases Nat.lt_trichotomy m n with hmn | rfl | hmn
  · have := hlt hn hmn
    omega
  · rfl
  · have := hlt hm hmn
    omega

def instructionAt (l : List Instruction) (offset : Nat) : Option Nat :=
  l.findIdx? (fun i => i.offset == offset)

theorem instructionAt_some {offset n : Nat} (h : instructionAt l offset = some n) :
    ∃ hn : n < l.length, l[n].offset = offset := by
  obtain ⟨hn, heq, -⟩ := List.findIdx?_eq_some_iff_getElem.mp h
  exact ⟨hn, by simpa using heq⟩

theorem Laid.instructionAt_offset (h : Laid start l) {n : Nat} (hn : n < l.length) :
    instructionAt l l[n].offset = some n := by
  refine List.findIdx?_eq_some_iff_getElem.mpr ⟨hn, by simp, fun j hj => ?_⟩
  have hne : l[j].offset ≠ l[n].offset := fun heq => by
    have := h.offset_inj (by omega) hn heq
    omega
  simpa using hne

theorem Laid.instructionAt_past (h : Laid start l) {n : Nat} (hn : n < l.length)
    (hlast : n + 1 = l.length) : instructionAt l (l[n].offset + l[n].length) = none := by
  cases heq : instructionAt l (l[n].offset + l[n].length) with
  | none => rfl
  | some m =>
      obtain ⟨hm, hoff⟩ := instructionAt_some heq
      have hpos := h.length_pos hn
      rcases Nat.lt_or_ge m n with hmn | hmn
      · have := h.end_le hmn hn
        omega
      · obtain rfl : m = n := by omega
        omega

end Laid

/-! ## Leaders -/

section Leaders

variable {familyOf : Instruction → Option String} {l : List Instruction} {atBarriers : Bool}

theorem indexOf_some {target n : Nat} (h : (indexOf l)[target]? = some n) :
    ∃ hn : n < l.length, l[n].offset = target := by
  have hfold : ∀ (k : Nat) (m : Std.TreeMap Nat Nat) (r : List Instruction),
      ((r.zipIdx k).foldl (fun m p => m.insert p.1.offset p.2) m)[target]? = some n →
      (∃ i, n = k + i ∧ ∃ hi : i < r.length, r[i].offset = target) ∨ m[target]? = some n := by
    intro k m r
    induction r generalizing k m with
    | nil => exact fun h => Or.inr h
    | cons i r ih =>
        intro h
        rcases ih (k + 1) _ h with ⟨j, rfl, hj, hoff⟩ | h
        · exact Or.inl ⟨j + 1, by omega, by simpa using hj, by simpa using hoff⟩
        · rw [Std.TreeMap.getElem?_insert] at h
          split at h
          · next hcmp =>
              have hoff : i.offset = target := by simpa using hcmp
              exact Or.inl ⟨0, by simpa using h.symm, by simp, by simpa using hoff⟩
          · exact Or.inr h
  rcases hfold 0 ∅ l h with ⟨i, rfl, hi, hoff⟩ | h
  · exact ⟨by simpa using hi, by simpa using hoff⟩
  · simp at h

/-- Where a block starts in an accepted list. -/
def Leader (familyOf : Instruction → Option String) (l : List Instruction) (atBarriers : Bool)
    (n : Nat) : Prop :=
  n = 0 ∨ ∃ k, ∃ hk : k < l.length, ∃ new, leaders familyOf l atBarriers l[k] k = .ok new ∧ n ∈ new

theorem mem_foldl_insert {new : List Nat} {s : Std.TreeSet Nat} {n : Nat} :
    n ∈ new.foldl (fun s a => s.insert a) s ↔ n ∈ new ∨ n ∈ s := by
  induction new generalizing s with
  | nil => simp
  | cons a new ih =>
      rw [List.foldl_cons, ih, Std.TreeSet.mem_insert, Nat.compare_eq_eq, List.mem_cons]
      tauto

/-- The starts of an accepted list are its leaders, and no instruction was refused. -/
theorem starts_ok {s : Std.TreeSet Nat} (h : starts familyOf l atBarriers = .ok s) :
    (∀ n, n ∈ s ↔ Leader familyOf l atBarriers n) ∧
      ∀ k (hk : k < l.length), ∃ new, leaders familyOf l atBarriers l[k] k = .ok new := by
  have hfold : ∀ (r : List (Instruction × Nat)) (s₀ s : Std.TreeSet Nat),
      r.foldlM (fun s p => do
        let new ← leaders familyOf l atBarriers p.1 p.2
        return new.foldl (·.insert ·) s) s₀ = Except.ok s →
      (∀ n, n ∈ s ↔ n ∈ s₀ ∨ ∃ p ∈ r, ∃ new, leaders familyOf l atBarriers p.1 p.2 = .ok new ∧
        n ∈ new) ∧ ∀ p ∈ r, ∃ new, leaders familyOf l atBarriers p.1 p.2 = .ok new := by
    intro r
    induction r with
    | nil =>
        intro s₀ s h
        obtain rfl : s₀ = s := by simpa [pure, Except.pure] using h
        simp
    | cons p r ih =>
        intro s₀ s h
        rw [List.foldlM_cons] at h
        cases hp : leaders familyOf l atBarriers p.1 p.2 with
        | error e => simp [hp, bind, Except.bind] at h
        | ok new =>
            have h' := ih (new.foldl (·.insert ·) s₀) s (by simpa [hp, bind, Except.bind, pure,
              Except.pure] using h)
            refine ⟨fun n => ?_, ?_⟩
            · rw [h'.1 n, mem_foldl_insert]
              simp only [List.mem_cons, exists_eq_or_imp, hp, Except.ok.injEq, exists_eq_left']
              tauto
            · intro q hq
              rcases List.mem_cons.mp hq with rfl | hq
              · exact ⟨new, hp⟩
              · exact h'.2 q hq
  obtain ⟨hmem, hall⟩ := hfold l.zipIdx _ s h
  have hzip : ∀ k (hk : k < l.length), (l[k], k) ∈ l.zipIdx := fun k hk =>
    List.mem_zipIdx_iff_getElem?.mpr (by simp [hk])
  refine ⟨fun n => ?_, fun k hk => hall (l[k], k) (hzip k hk)⟩
  rw [hmem n, Leader]
  refine or_congr ?_ ?_
  · rw [Std.TreeSet.mem_insert, Nat.compare_eq_eq]
    simp [eq_comm]
  · constructor
    · rintro ⟨⟨i, k⟩, hp, new, hnew, hn⟩
      have hk : l[k]? = some i := List.mem_zipIdx_iff_getElem?.mp hp
      obtain ⟨hlt, rfl⟩ := List.getElem?_eq_some_iff.mp hk
      exact ⟨k, hlt, new, hnew, hn⟩
    · rintro ⟨k, hk, new, hnew, hn⟩
      exact ⟨(l[k], k), hzip k hk, new, hnew, hn⟩

def Targeted (familyOf : Instruction → Option String) (l : List Instruction) (n : Nat) : Prop :=
  ∃ i ∈ l, (conditionOf familyOf i).isSome ∧ ∃ hn : n < l.length, branchTarget i = .ok l[n].offset

theorem conditionOf_some {i : Instruction} {c : Condition} (h : conditionOf familyOf i = some c) :
    familyOf i = some "SOPP" ∧ branchCondition i "SOPP" = some c := by
  obtain ⟨family, hfamily, hc⟩ := Option.bind_eq_some_iff.mp h
  have hsopp : family = "SOPP" := by
    by_contra hne
    simp [branchCondition, hne] at hc
  subst hsopp
  exact ⟨hfamily, hc⟩

theorem branchCondition_opcode {i : Instruction} {c : Condition}
    (h : branchCondition i "SOPP" = some c) : (i.opcode, c) ∈ branches := by
  simp only [branchCondition, bne_self_eq_false, Bool.false_eq_true, if_false,
    Option.map_eq_some_iff] at h
  obtain ⟨p, hp, rfl⟩ := h
  have hop : p.1 = i.opcode := by simpa using List.find?_some hp
  rw [← hop]
  exact List.mem_of_find?_eq_some hp

theorem isBarrier_of_branch {i : Instruction} {c : Condition}
    (h : branchCondition i "SOPP" = some c) : isBarrier i "SOPP" = false := by
  have hmem := branchCondition_opcode h
  simp only [branches, List.mem_cons, Prod.mk.injEq, List.not_mem_nil, or_false] at hmem
  simp only [isBarrier, barrier, beq_self_eq_true, Bool.true_and, beq_eq_false_iff_ne]
  omega

/-- A branch is not an `s_endpgm`. -/
theorem isEnd_of_branch {i : Instruction} {c : Condition} (h : conditionOf familyOf i = some c) :
    isEnd familyOf i = false := by
  have hmem := branchCondition_opcode (conditionOf_some h).2
  simp only [branches, List.mem_cons, Prod.mk.injEq, List.not_mem_nil, or_false] at hmem
  simp only [isEnd, endpgm, Bool.and_eq_false_iff, beq_eq_false_iff_ne]
  omega

theorem conditionOf_of_isEnd {i : Instruction} (h : isEnd familyOf i = true) :
    conditionOf familyOf i = none := by
  cases hc : conditionOf familyOf i with
  | none => rfl
  | some c => simp [isEnd_of_branch hc] at h

theorem leaders_branch {i : Instruction} {c : Condition} {n : Nat} {new : List Nat}
    (hc : conditionOf familyOf i = some c) (h : leaders familyOf l atBarriers i n = .ok new) :
    ∃ target at_, branchTarget i = .ok target ∧ (indexOf l)[target]? = some at_ ∧
      new = at_ :: (if n + 1 < l.length then [n + 1] else []) := by
  obtain ⟨hfamily, hbranch⟩ := conditionOf_some hc
  simp only [leaders, hfamily, isBarrier_of_branch hbranch, hbranch, Bool.and_false,
    Bool.false_eq_true, if_false, Option.isNone_some, bind, Except.bind] at h
  cases ht : branchTarget i with
  | error e => simp [ht] at h
  | ok target =>
      simp only [ht] at h
      cases hat : (indexOf l)[target]? with
      | none => simp [hat] at h
      | some at_ =>
          simp only [hat, Except.ok.injEq] at h
          exact ⟨target, at_, rfl, hat, h.symm⟩

/-- What an instruction that is no branch adds: nothing, or what follows a barrier. -/
theorem leaders_plain {i : Instruction} {n : Nat} {new : List Nat}
    (hc : conditionOf familyOf i = none) (h : leaders familyOf l atBarriers i n = .ok new) :
    new = [] ∨ (isEnd familyOf i = false ∧ new = if n + 1 < l.length then [n + 1] else []) := by
  cases hfamily : familyOf i with
  | none =>
      simp only [leaders, hfamily, Except.ok.injEq] at h
      exact Or.inl h.symm
  | some family =>
      have hnone : branchCondition i family = none := by
        simpa [conditionOf, hfamily] using hc
      simp only [leaders, hfamily, hnone, Option.isNone_none, if_true] at h
      split at h
      · next hb =>
          right
          simp only [Except.ok.injEq] at h
          simp only [isBarrier, barrier, Bool.and_eq_true, beq_iff_eq] at hb
          exact ⟨by simp [isEnd, endpgm, hb.2.2], h.symm⟩
      · exact Or.inl (by simpa using h.symm)

theorem branch_ok (hok : ∀ k (hk : k < l.length), ∃ new,
      leaders familyOf l atBarriers l[k] k = .ok new)
    {k : Nat} (hk : k < l.length) {c : Condition} (hc : conditionOf familyOf l[k] = some c) :
    (∃ n, ∃ hn : n < l.length, branchTarget l[k] = .ok l[n].offset ∧
      Leader familyOf l atBarriers n) ∧
    (k + 1 < l.length → Leader familyOf l atBarriers (k + 1)) := by
  obtain ⟨new, hnew⟩ := hok k hk
  obtain ⟨target, at_, ht, hat, rfl⟩ := leaders_branch hc hnew
  obtain ⟨hn, hoff⟩ := indexOf_some hat
  refine ⟨⟨at_, hn, by rw [ht, hoff], ?_⟩, fun hlt => ?_⟩
  · exact Or.inr ⟨k, hk, _, hnew, List.mem_cons_self⟩
  · exact Or.inr ⟨k, hk, _, hnew, by simp [hlt]⟩

/-- A leader after an `s_endpgm` is the target of a branch. -/
theorem Leader.targeted {k : Nat} (h : Leader familyOf l atBarriers (k + 1)) (hk : k < l.length)
    (hend : isEnd familyOf l[k] = true) : Targeted familyOf l (k + 1) := by
  rcases h with h | ⟨j, hj, new, hnew, hmem⟩
  · omega
  · cases hc : conditionOf familyOf l[j] with
    | some c =>
        obtain ⟨target, at_, ht, hat, rfl⟩ := leaders_branch hc hnew
        obtain ⟨hn, hoff⟩ := indexOf_some hat
        have hne : j ≠ k := by
          rintro rfl
          simp [isEnd_of_branch hc] at hend
        have heq : at_ = k + 1 := by
          rcases List.mem_cons.mp hmem with h | h
          · exact h.symm
          · split at h <;> simp at h
            omega
        subst heq
        exact ⟨l[j], List.getElem_mem hj, by simp [hc], hn, by rw [ht, hoff]⟩
    | none =>
        rcases leaders_plain hc hnew with rfl | ⟨hne, rfl⟩
        · simp at hmem
        · split at hmem <;> simp at hmem
          subst hmem
          simp [hne] at hend

theorem Leader.lt (h : Leader familyOf l atBarriers n) (hne : l ≠ []) : n < l.length := by
  have hpos := List.length_pos_of_ne_nil hne
  rcases h with rfl | ⟨k, hk, new, hnew, hmem⟩
  · exact hpos
  · have hnext : n ∈ (if k + 1 < l.length then [k + 1] else []) → n < l.length := by
      intro hmem
      split at hmem <;> simp at hmem
      omega
    cases hc : conditionOf familyOf l[k] with
    | some c =>
        obtain ⟨target, at_, -, hat, rfl⟩ := leaders_branch hc hnew
        rcases List.mem_cons.mp hmem with rfl | hmem
        · exact (indexOf_some hat).1
        · exact hnext hmem
    | none =>
        rcases leaders_plain hc hnew with rfl | ⟨-, rfl⟩
        · simp at hmem
        · exact hnext hmem

theorem Targeted.leader {start n : Nat} (hl : Laid start l)
    (hok : ∀ k (hk : k < l.length), ∃ new, leaders familyOf l atBarriers l[k] k = .ok new)
    (h : Targeted familyOf l n) : Leader familyOf l atBarriers n := by
  obtain ⟨i, hi, hc, hn, ht⟩ := h
  obtain ⟨k, hk, rfl⟩ := List.getElem_of_mem hi
  obtain ⟨c, hc⟩ := Option.isSome_iff_exists.mp hc
  obtain ⟨⟨m, hm, htm, hlead⟩, -⟩ := branch_ok hok hk hc
  rw [ht, Except.ok.injEq] at htm
  rwa [hl.offset_inj hn hm htm]

end Leaders

/-! ## Blocks -/

section Blocks

variable {familyOf : Instruction → Option String} {l : List Instruction}

/-- A block from one boundary up to the next or to the end of the list. -/
structure Block.Between (familyOf : Instruction → Option String) (l : List Instruction)
    (bound : Nat → Prop) (b : Block) : Prop where
  first_lt : b.first < b.stop
  stop_le : b.stop ≤ l.length
  bound_first : bound b.first
  start_eq : ∀ h : b.first < l.length, l[b.first].offset = b.start
  terminator_eq : terminatorAt familyOf l b.stop = .ok b.terminator
  inner : ∀ n, b.first < n → n < b.stop → ¬ bound n
  bound_stop : b.stop = l.length ∨ bound b.stop

namespace Block.Between

variable {bound : Nat → Prop} {b b' : Block}

theorem first_lt_length (h : b.Between familyOf l bound) : b.first < l.length :=
  Nat.lt_of_lt_of_le h.first_lt h.stop_le

theorem stop_eq_of_first (h : b.Between familyOf l bound) (h' : b'.Between familyOf l bound)
    (hfirst : b.first = b'.first) : b.stop = b'.stop := by
  have hle : ∀ {c c' : Block}, c.Between familyOf l bound → c'.Between familyOf l bound →
      c.first = c'.first → c'.stop ≤ c.stop := by
    intro c c' hc hc' hfirst
    by_contra hlt
    rcases hc.bound_stop with hstop | hstop
    · have := hc'.stop_le
      omega
    · exact hc'.inner c.stop (by have := hc.first_lt; omega) (by omega) hstop
  exact Nat.le_antisymm (hle h' h hfirst.symm) (hle h h' hfirst)

/-- Two blocks that start together are the same block. -/
theorem eq_of_start {start : Nat} (hl : Laid start l) (h : b.Between familyOf l bound)
    (h' : b'.Between familyOf l bound) (hstart : b.start = b'.start) : b = b' := by
  have hfirst : b.first = b'.first := by
    apply hl.offset_inj h.first_lt_length h'.first_lt_length
    rw [h.start_eq, h'.start_eq, hstart]
  have hstop := h.stop_eq_of_first h' hfirst
  have hterm : b.terminator = b'.terminator := by
    have heq := h.terminator_eq
    rw [hstop, h'.terminator_eq] at heq
    exact (Except.ok.inj heq).symm
  cases b
  cases b'
  simp_all

end Block.Between

theorem cut_cons_ok {first : Nat} {rest : List Nat} {blocks : List Block}
    (h : cut familyOf l (first :: rest) = .ok blocks) :
    ∃ terminator blocks', terminatorAt familyOf l (rest.head?.getD l.length) = .ok terminator ∧
      cut familyOf l rest = .ok blocks' ∧
      blocks = ⟨(l.getD first default).offset, first, rest.head?.getD l.length, terminator⟩ ::
        blocks' := by
  simp only [cut, bind, Except.bind, pure, Except.pure] at h
  cases ht : terminatorAt familyOf l (rest.head?.getD l.length) with
  | error e => simp [ht] at h
  | ok terminator =>
      cases hc : cut familyOf l rest with
      | error e => simp [ht, hc] at h
      | ok blocks' =>
          simp only [ht, hc, Except.ok.injEq] at h
          exact ⟨terminator, blocks', rfl, rfl, h.symm⟩

/-- The blocks cut at ascending boundaries run from each boundary to the next. -/
theorem cut_ok {bs : List Nat} {blocks : List Block} (hsorted : bs.Pairwise (· < ·))
    (hlt : ∀ n ∈ bs, n < l.length) (h : cut familyOf l bs = .ok blocks) :
    (∀ b ∈ blocks, b.Between familyOf l (· ∈ bs)) ∧ ∀ n ∈ bs, ∃ b ∈ blocks, b.first = n := by
  induction bs generalizing blocks with
  | nil =>
      obtain rfl : blocks = [] := by simpa [cut] using h.symm
      simp
  | cons first rest ih =>
      obtain ⟨terminator, blocks', ht, hc, rfl⟩ := cut_cons_ok h
      obtain ⟨hfirst, hrest⟩ := List.pairwise_cons.mp hsorted
      obtain ⟨ihb, ihn⟩ := ih hrest (fun n hn => hlt n (List.mem_cons_of_mem _ hn)) hc
      have hfl := hlt first List.mem_cons_self
      constructor
      · intro b hb
        rcases List.mem_cons.mp hb with rfl | hb
        · refine ⟨?_, ?_, List.mem_cons_self, fun hlen => ?_, ht, ?_, ?_⟩
          · cases rest with
            | nil => simpa using hfl
            | cons next rest => simpa using hfirst next List.mem_cons_self
          · cases rest with
            | nil => simp
            | cons next rest => simpa using (hlt next (by simp)).le
          · simp only [List.getD_eq_getElem?_getD]
            rw [List.getElem?_eq_getElem hlen, Option.getD_some]
          · intro n hn hstop hmem
            cases rest with
            | nil =>
                rw [List.mem_singleton.mp hmem] at hn
                exact Nat.lt_irrefl _ hn
            | cons next rest =>
                simp only [List.head?_cons, Option.getD_some] at hstop
                simp only [List.mem_cons] at hmem
                rcases hmem with rfl | rfl | hmem
                · exact Nat.lt_irrefl _ hn
                · exact Nat.lt_irrefl _ hstop
                · have := (List.pairwise_cons.mp hrest).1 n hmem
                  omega
          · cases rest with
            | nil => simp
            | cons next rest => simp
        · obtain ⟨h1, h2, h3, h4, h5, h6, h7⟩ := ihb b hb
          refine ⟨h1, h2, List.mem_cons_of_mem _ h3, h4, h5, ?_, h7.imp id (List.mem_cons_of_mem _)⟩
          intro n hn hstop hmem
          rcases List.mem_cons.mp hmem with rfl | hmem
          · have := hfirst b.first h3
            omega
          · exact h6 n hn hstop hmem
      · intro n hn
        rcases List.mem_cons.mp hn with rfl | hn
        · exact ⟨_, List.mem_cons_self, rfl⟩
        · obtain ⟨b, hb, hbn⟩ := ihn n hn
          exact ⟨b, List.mem_cons_of_mem _ hb, hbn⟩

structure Splits (familyOf : Instruction → Option String) (l : List Instruction)
    (atBarriers : Bool) (blocks : List Block) : Prop where
  accepts : ∀ k (hk : k < l.length), ∃ new, leaders familyOf l atBarriers l[k] k = .ok new
  between : ∀ b ∈ blocks, b.Between familyOf l (Leader familyOf l atBarriers)
  block_of : ∀ n, n < l.length → Leader familyOf l atBarriers n → ∃ b ∈ blocks, b.first = n

theorem splitAtBarriers_ok {d : Decode} {atBarriers : Bool} {blocks : List Block}
    (h : splitAtBarriers familyOf d atBarriers = .ok blocks) :
    Splits familyOf d.instructions atBarriers blocks := by
  by_cases hnil : d.instructions = []
  · have hblocks : blocks = [] := by simpa [splitAtBarriers, hnil] using h.symm
    subst hblocks
    refine ⟨fun k hk => ?_, by simp, fun n hn => ?_⟩
    · simp [hnil] at hk
    · simp [hnil] at hn
  · simp only [splitAtBarriers, List.isEmpty_iff, hnil, if_false, bind, Except.bind] at h
    cases hs : starts familyOf d.instructions atBarriers with
    | error e => simp [hs] at h
    | ok s =>
        simp only [hs] at h
        obtain ⟨hmem, haccepts⟩ := starts_ok hs
        have hlist : ∀ n, n ∈ s.toList ↔ Leader familyOf d.instructions atBarriers n := fun n => by
          rw [Std.TreeSet.mem_toList, hmem]
        have hsorted : s.toList.Pairwise (· < ·) :=
          Std.TreeSet.ordered_toList.imp (fun h => Nat.compare_eq_lt.mp h)
        obtain ⟨hb, hn⟩ := cut_ok hsorted (fun n hn => ((hlist n).mp hn).lt hnil) h
        refine ⟨haccepts, fun b hbm => ?_, fun n _ hlead => hn n ((hlist n).mpr hlead)⟩
        obtain ⟨h1, h2, h3, h4, h5, h6, h7⟩ := hb b hbm
        exact ⟨h1, h2, (hlist _).mp h3, h4, h5, fun n hn hs hl => h6 n hn hs ((hlist n).mpr hl),
          h7.imp id (hlist _).mp⟩

theorem Splits.blockAt_start {start : Nat} {atBarriers : Bool} {blocks : List Block}
    (hl : Laid start l) (h : Splits familyOf l atBarriers blocks) {b : Block} (hb : b ∈ blocks) :
    ∃ n, blockAt blocks b.start = some n ∧ blocks[n]? = some b := by
  cases hat : blockAt blocks b.start with
  | none =>
      have := List.findIdx?_eq_none_iff.mp hat b hb
      simp at this
  | some n =>
      obtain ⟨hn, heq, -⟩ := List.findIdx?_eq_some_iff_getElem.mp hat
      refine ⟨n, rfl, ?_⟩
      rw [List.getElem?_eq_getElem hn]
      have hmem := List.getElem_mem hn
      rw [(h.between _ hmem).eq_of_start hl (h.between b hb) (by simpa using heq)]

theorem blockAt_some {blocks : List Block} {offset n : Nat} (h : blockAt blocks offset = some n) :
    ∃ b, blocks[n]? = some b ∧ b ∈ blocks ∧ b.start = offset := by
  obtain ⟨hn, heq, -⟩ := List.findIdx?_eq_some_iff_getElem.mp h
  exact ⟨blocks[n], List.getElem?_eq_getElem hn, List.getElem_mem hn, by simpa using heq⟩

end Blocks

end Orbistoun.Translate
