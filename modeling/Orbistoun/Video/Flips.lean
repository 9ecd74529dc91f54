import Mathlib.Tactic
import Orbistoun.Lib.ByteMemory
import Orbistoun.Lib.Machine

/-! # Flips a command buffer carries

A queued flip waits under the context id of its release; the command processor stores one into the
release's label and reports both, and the flip is performed where they are the queued flip's own.
The buffer on screen is kept twice, as the port's last flip and in the queued module's own map, and
a label is cleared only by the second. One port, opened before the run.
-/

namespace Orbistoun.Video.Flips

open Orbistoun.Lib
open Orbistoun.Lib.ByteMemory (Memory word store load)
open Orbistoun.Lib.Codes (littleEndian ofLittleEndian)

/-! ## The port and the flips queued on it -/

def FLIP_LABEL_BASE : Nat := 0xC800040A0

/-- The mapping that holds the labels. -/
def LABEL_REGION : Nat × Nat := (0xC80000000, 0x10000)

def FIRST_CONTEXT : Nat := 0x08000101

def labelOf (index : Nat) : Nat := FLIP_LABEL_BASE + index * 8

/-- A flip waiting for its release. -/
structure Queued where
  index : Nat
  arg : Nat
  label : Nat
  deriving DecidableEq

structure State where
  /-- How many buffers the port has registered. -/
  buffers : Nat
  nextContext : Nat
  pending : Nat → Option Queued
  onScreen : Option Nat
  flips : Nat
  lastFlip : Option Nat
  lastFlipArg : Nat
  memory : Memory

inductive Action where
  /-- A flip queued, and whether the host maps the labels. -/
  | queue (index arg : Nat) (mapped : Bool)
  /-- A release the command processor reaches: it stores one into the label and reports it. -/
  | release (label context : Nat)
  /-- A flip submitted by the CPU. -/
  | flip (index arg : Nat)
  deriving DecidableEq

inductive Event where
  | queued (context : Nat) (flip : Queued)
  | performed (label context : Nat) (flip : Queued)
  deriving DecidableEq

variable {s : State} {a : Action} {label context index : Nat} {q : Queued}

/-- A flip recorded under the next context id, a 32-bit counter. -/
def State.record (s : State) (q : Queued) : State :=
  { s with
    nextContext := (s.nextContext + 1) % 2 ^ 32
    pending := Function.update s.pending s.nextContext (some q) }

/-- `queue`: the flip recorded under the context id answered with its label, or nothing. -/
def State.queue (s : State) (index arg : Nat) (mapped : Bool) : State × List Event :=
  if index < s.buffers ∧ labelOf index + 8 ≤ LABEL_REGION.1 + LABEL_REGION.2 ∧ mapped = true then
    (s.record ⟨index, arg, labelOf index⟩, [.queued s.nextContext ⟨index, arg, labelOf index⟩])
  else (s, [])

/-- `flip`: what is kept of the port, which is open. -/
def State.flip (s : State) (index arg : Nat) : State :=
  { s with flips := s.flips + 1, lastFlip := some index, lastFlipArg := arg }

/-- The queued flip a release carries out, if any. -/
def State.taken (s : State) (label context : Nat) : Option Queued :=
  (s.pending context).filter (fun q => q.label == label)

/-- The label of the buffer a queued flip replaces on screen is cleared. -/
def State.cleared (s : State) (index : Nat) : Memory :=
  match s.onScreen.filter (fun previous => previous != index) with
  | some previous => store s.memory (labelOf previous) (littleEndian 8 0)
  | none => s.memory

def State.perform (s : State) (context : Nat) (q : Queued) : State :=
  let shown : State :=
    { s with
      pending := Function.update s.pending context none
      onScreen := some q.index
      memory := s.cleared q.index }
  shown.flip q.index q.arg

/-- `released`: the flip performed where the label and context are a queued flip's own. -/
def State.released (s : State) (label context : Nat) : State × List Event :=
  match s.taken label context with
  | none => (s, [])
  | some q => (s.perform context q, [.performed label context q])

/-- The command processor's store before it reports a release. -/
def State.signalled (s : State) (label : Nat) : State :=
  { s with memory := store s.memory label (littleEndian 8 1) }

def port : Machine State Action Event where
  step s
    | .queue index arg mapped => s.queue index arg mapped
    | .release label context => (s.signalled label).released label context
    | .flip index arg => (s.flip index arg, [])

/-- An open port with its buffers registered and nothing shown, the labels all zero. -/
def opened (buffers : Nat) : State :=
  ⟨buffers, FIRST_CONTEXT, fun _ => none, none, 0, none, 0, fun _ => 0⟩

/-! ## Labels -/

def State.labelled (s : State) (index : Nat) : Nat := word s.memory 8 (labelOf index)

theorem labelOf_apart {other : Nat} (h : index ≠ other) :
    ByteMemory.Apart (labelOf index) 8 (labelOf other) 8 := by
  unfold ByteMemory.Apart labelOf
  omega

/-- Eight bytes read one exactly where the first is one and the rest are zero. -/
theorem word_eq_one_iff (m : Memory) (at' : Nat) :
    word m 8 at' = 1 ↔ load m at' 8 = littleEndian 8 1 := by
  have hone : ofLittleEndian (littleEndian 8 1) = 1 := Codes.ofLittleEndian_littleEndian (by decide)
  constructor
  · intro h
    apply Codes.ofLittleEndian_inj
    · rw [ByteMemory.load_length, Codes.littleEndian_length]
    · rw [hone]
      exact h
  · intro h
    rw [word, h, hone]

theorem byte_of_word_eq_one {m : Memory} {at' : Nat} (h : word m 8 at' = 1) {i : Nat} (hi : i < 8) :
    m (at' + i) = if i = 0 then 1 else 0 := by
  have hload := (word_eq_one_iff m at').mp h
  have hbyte : (load m at' 8)[i]? = (littleEndian 8 1)[i]? := by rw [hload]
  have hread : (load m at' 8)[i]? = some (m (at' + i)) := by
    simp [load, hi]
  rw [hread] at hbyte
  interval_cases i <;> exact Option.some.inj hbyte

theorem word_store_one {m : Memory} {at' other : Nat}
    (h : word (store m at' (littleEndian 8 1)) 8 other = 1) (hne : other ≠ at') :
    word m 8 other = 1 := by
  have hlen : (littleEndian 8 1).length = 8 := Codes.littleEndian_length 8 1
  have hstored : word (store m at' (littleEndian 8 1)) 8 at' = 1 :=
    ByteMemory.word_store (by decide)
  by_cases hapart : ByteMemory.Apart at' 8 other 8
  · rw [ByteMemory.word_store_apart (by rw [hlen]; exact hapart)] at h
    exact h
  · exfalso
    unfold ByteMemory.Apart at hapart
    rcases Nat.lt_or_gt_of_ne hne with hlt | hgt
    · -- the one stored lies past the other word's first byte
      have hlater := byte_of_word_eq_one h (i := at' - other) (by omega)
      have hone := byte_of_word_eq_one hstored (i := 0) (by decide)
      rw [if_neg (by omega), show other + (at' - other) = at' + 0 by omega, hone] at hlater
      exact absurd hlater (by decide)
    · -- the other word's first byte is one of the zeros stored
      have hfirst := byte_of_word_eq_one h (i := 0) (by decide)
      have hzero := byte_of_word_eq_one hstored (i := other - at') (by omega)
      rw [if_neg (by omega), show at' + (other - at') = other + 0 by omega, hfirst] at hzero
      exact absurd hzero (by decide)

theorem cleared_labelled (s : State) (index other : Nat) :
    word (s.cleared index) 8 (labelOf other) =
      if s.onScreen = some other ∧ other ≠ index then 0 else s.labelled other := by
  unfold State.cleared State.labelled
  cases hscreen : s.onScreen with
  | none => rw [if_neg (by rintro ⟨h, -⟩; cases h)]; rfl
  | some previous =>
      by_cases hsame : previous = index
      · rw [Option.filter_some, if_neg (by simp [hsame]), if_neg]
        rintro ⟨h, hne⟩
        exact hne (Option.some.inj h ▸ hsame)
      · rw [Option.filter_some, if_pos (by simp [hsame])]
        by_cases hother : previous = other
        · rw [if_pos ⟨by rw [hother], fun h => hsame (hother.trans h)⟩, hother]
          exact ByteMemory.word_store (by decide)
        · rw [if_neg (fun h => hother (Option.some.inj h.1))]
          apply ByteMemory.word_store_apart
          rw [Codes.littleEndian_length]
          exact labelOf_apart hother

/-! ## What is shown -/

/-- A registered buffer's label reads one only where the port last flipped to the buffer. -/
def Shown (s : State) : Prop := ∀ other < s.buffers, s.labelled other = 1 → s.lastFlip = some other

/-- A CPU flip replaces no buffer whose label reads one, a release that is no queued flip's sets no
label but the shown buffer's, and a queued flip is released only over what the queued module has on
screen. -/
def Fits (s : State) : Action → Prop
  | .queue _ _ _ => True
  | .flip index _ => ∀ other < s.buffers, s.labelled other = 1 → other = index
  | .release label context =>
      match s.taken label context with
      | none => ∀ other < s.buffers, label = labelOf other → s.lastFlip = some other
      | some q =>
          ∀ other < s.buffers, s.labelled other = 1 → other = q.index ∨ s.onScreen = some other

/-- Every flip waiting carries its buffer's own label. -/
def Own (s : State) : Prop := ∀ context q, s.pending context = some q → q.label = labelOf q.index

theorem pending_of_taken (h : s.taken label context = some q) :
    s.pending context = some q ∧ q.label = label := by
  obtain ⟨hpending, hlabel⟩ := Option.filter_eq_some_iff.mp h
  exact ⟨hpending, eq_of_beq hlabel⟩

theorem step_queue (s : State) (index arg : Nat) (mapped : Bool) :
    port.step s (.queue index arg mapped) = (s, []) ∨
      port.step s (.queue index arg mapped) = (s.record ⟨index, arg, labelOf index⟩,
        [.queued s.nextContext ⟨index, arg, labelOf index⟩]) := by
  show s.queue index arg mapped = _ ∨ s.queue index arg mapped = _
  unfold State.queue
  split
  · exact .inr rfl
  · exact .inl rfl

theorem step_release_none (h : s.taken label context = none) :
    port.step s (.release label context) = (s.signalled label, []) := by
  show (s.signalled label).released label context = _
  have htaken : (s.signalled label).taken label context = none := h
  rw [State.released, htaken]

theorem step_release_some (h : s.taken label context = some q) :
    port.step s (.release label context) =
      ((s.signalled label).perform context q, [.performed label context q]) := by
  show (s.signalled label).released label context = _
  have htaken : (s.signalled label).taken label context = some q := h
  rw [State.released, htaken]

theorem record_pending (s : State) (q : Queued) (context : Nat) :
    (s.record q).pending context = if context = s.nextContext then some q else s.pending context := by
  show Function.update s.pending s.nextContext (some q) context = _
  rw [Function.update_apply]

theorem perform_pending (s : State) (q : Queued) (context other : Nat) :
    (s.perform context q).pending other = if other = context then none else s.pending other := by
  show Function.update s.pending context none other = _
  rw [Function.update_apply]

theorem step_own (a : Action) (h : Own s) : Own (port.step s a).1 := by
  cases a with
  | flip index arg => exact h
  | queue index arg mapped =>
      rcases step_queue s index arg mapped with hstep | hstep
      · rw [hstep]
        exact h
      · rw [hstep]
        intro context q hq
        rw [record_pending] at hq
        split at hq
        · cases hq
          rfl
        · exact h context q hq
  | release label context =>
      cases htaken : s.taken label context with
      | none =>
          rw [step_release_none htaken]
          exact h
      | some q =>
          rw [step_release_some htaken]
          intro other q' hq'
          rw [perform_pending] at hq'
          split at hq'
          · cases hq'
          · exact h other q' hq'

/-- After a step labels read one only for the buffer flipped to exactly where the step fits. -/
theorem step_shown_iff (hown : Own s) (h : Shown s) (a : Action) :
    Shown (port.step s a).1 ↔ Fits s a := by
  cases a with
  | queue index arg mapped =>
      apply iff_of_true _ trivial
      rcases step_queue s index arg mapped with hstep | hstep
      · rw [hstep]
        exact h
      · rw [hstep]
        exact h
  | flip index arg =>
      show (∀ other < s.buffers, s.labelled other = 1 → some index = some other) ↔ _
      constructor
      · intro hshown other hlt hone
        exact (Option.some.inj (hshown other hlt hone)).symm
      · intro hfits other hlt hone
        rw [hfits other hlt hone]
  | release label context =>
      cases htaken : s.taken label context with
      | none =>
          rw [step_release_none htaken, Fits, htaken]
          constructor
          · intro hshown other hlt hlabel
            apply hshown other hlt
            show word (store s.memory label (littleEndian 8 1)) 8 (labelOf other) = 1
            rw [hlabel]
            exact ByteMemory.word_store (by decide)
          · intro hfits other hlt hone
            by_cases hlabel : labelOf other = label
            · exact hfits other hlt hlabel.symm
            · exact h other hlt (word_store_one hone hlabel)
      | some q =>
          obtain ⟨hpending, hlabel⟩ := pending_of_taken htaken
          have hindex : label = labelOf q.index := hlabel ▸ hown context q hpending
          have hkept : ∀ other, other ≠ q.index →
              (s.signalled label).labelled other = s.labelled other := by
            intro other hne
            apply ByteMemory.word_store_apart
            rw [Codes.littleEndian_length, hindex]
            exact labelOf_apart hne.symm
          rw [step_release_some htaken, Fits, htaken]
          show (∀ other < s.buffers, word ((s.signalled label).cleared q.index) 8 (labelOf other) = 1 →
            some q.index = some other) ↔ _
          constructor
          · intro hshown other hlt hone
            by_contra hneither
            rw [not_or] at hneither
            have hread := hshown other hlt (by
              rw [cleared_labelled, if_neg (fun hcleared => hneither.2 hcleared.1),
                hkept other hneither.1, hone])
            exact hneither.1 (Option.some.inj hread).symm
          · intro hfits other hlt hone
            by_contra hne
            have hother : other ≠ q.index := fun heq => hne (by rw [heq])
            rw [cleared_labelled] at hone
            split at hone
            · cases hone
            · next hscreen =>
                rw [hkept other hother] at hone
                rcases hfits other hlt hone with heq | hon
                · exact hother heq
                · exact hscreen ⟨hon, hother⟩

/-! ## Flips performed -/

/-- What has been performed of what was queued: each by the release of its own label, and no flip
oftener than it was queued, the one still waiting counted. -/
structure Performed (s : State) (log : List Event) : Prop where
  own : Own s
  label : ∀ label context q, .performed label context q ∈ log → label = q.label
  once : ∀ context q, log.count (.performed q.label context q) +
    (if s.pending context = some q then 1 else 0) ≤ log.count (.queued context q)

theorem Performed.congr {log : List Event} {s' : State} (h : Performed s log)
    (hpending : s'.pending = s.pending) : Performed s' (log ++ []) := by
  rw [List.append_nil]
  constructor
  · intro context q hq
    rw [hpending] at hq
    exact h.own context q hq
  · exact h.label
  · intro context q
    rw [hpending]
    exact h.once context q

theorem step_performed {log : List Event} (a : Action) (h : Performed s log) :
    Performed (port.step s a).1 (log ++ (port.step s a).2) := by
  cases a with
  | flip index arg => exact h.congr rfl
  | queue index arg mapped =>
      have hown := step_own (.queue index arg mapped) h.own
      rcases step_queue s index arg mapped with hstep | hstep
      · rw [hstep]
        exact h.congr rfl
      · rw [hstep] at hown ⊢
        refine ⟨hown, ?_, ?_⟩
        · intro label context q hmem
          rcases List.mem_append.mp hmem with hold | hnew
          · exact h.label label context q hold
          · cases List.mem_singleton.mp hnew
        · intro context q
          have honce := h.once context q
          rw [List.count_append, List.count_append, List.count_singleton, List.count_singleton,
            if_neg (by simp), record_pending]
          by_cases hcontext : context = s.nextContext
          · rw [if_pos hcontext]
            by_cases hq : (⟨index, arg, labelOf index⟩ : Queued) = q
            · rw [if_pos (by rw [hq]), if_pos (by rw [hq, hcontext]; exact beq_self_eq_true _)]
              omega
            · rw [if_neg (fun heq => hq (Option.some.inj heq))]
              omega
          · rw [if_neg hcontext]
            omega
  | release label context =>
      have hown := step_own (.release label context) h.own
      cases htaken : s.taken label context with
      | none =>
          rw [step_release_none htaken]
          exact h.congr rfl
      | some q =>
          obtain ⟨hpending, hlabel⟩ := pending_of_taken htaken
          rw [step_release_some htaken] at hown ⊢
          refine ⟨hown, ?_, ?_⟩
          · intro l c q' hmem
            rcases List.mem_append.mp hmem with hold | hnew
            · exact h.label l c q' hold
            · cases List.mem_singleton.mp hnew
              exact hlabel.symm
          · intro other q'
            have honce := h.once other q'
            have hzero : [Event.performed label context q].count (.queued other q') = 0 :=
              List.count_eq_zero_of_not_mem (by simp)
            rw [List.count_append, List.count_append, hzero, perform_pending]
            by_cases hsame : other = context ∧ q' = q
            · obtain ⟨rfl, rfl⟩ := hsame
              rw [hpending, if_pos rfl] at honce
              rw [hlabel] at honce ⊢
              rw [List.count_singleton_self, if_pos rfl, if_neg (by simp)]
              exact honce
            · have hnone : [Event.performed label context q].count (.performed q'.label other q') =
                  0 := by
                apply List.count_eq_zero_of_not_mem
                intro hmem
                cases List.mem_singleton.mp hmem
                exact hsame ⟨rfl, rfl⟩
              rw [hnone]
              by_cases hcontext : other = context
              · rw [if_pos hcontext, if_neg (by simp)]
                exact (Nat.le_add_right _ _).trans honce
              · rw [if_neg hcontext]
                exact honce

/-! ## Runs -/

theorem opened_own (buffers : Nat) : Own (opened buffers) := by
  intro context q hq
  cases hq

theorem opened_shown (buffers : Nat) : Shown (opened buffers) := by
  intro other _ hone
  have hzero : (0 : UInt8) = 1 := byte_of_word_eq_one hone (i := 0) (by decide)
  exact absurd hzero (by decide)

/-- A run shows its labels right throughout exactly where every step fits. -/
theorem run_shown_iff (hown : Own s) (h : Shown s) (as : List Action) :
    port.Throughout Shown s as ↔ port.Meets Fits s as := by
  induction as generalizing s with
  | nil => exact iff_of_true ⟨h, trivial⟩ trivial
  | cons a as ih =>
      have hstep := step_shown_iff hown h a
      constructor
      · rintro ⟨-, hnext, hrest⟩
        exact ⟨hstep.mp hnext, (ih (step_own a hown) hnext).mp ⟨hnext, hrest⟩⟩
      · rintro ⟨hfits, hrest⟩
        have hnext := hstep.mpr hfits
        exact ⟨h, hnext, ((ih (step_own a hown) hnext).mpr hrest).2⟩

theorem run_performed (buffers : Nat) (as : List Action) :
    Performed (port.after (opened buffers) as) (port.log (opened buffers) as) := by
  have hstart : Performed (opened buffers) [] := by
    refine ⟨opened_own buffers, ?_, ?_⟩
    · intro label context q hmem
      cases hmem
    · intro context q
      exact Nat.le_refl 0
  apply Machine.prefix_rule (p := fun _ _ _ => True)
    (fun _ _ a h _ => step_performed a h) hstart
  exact fun _ _ _ => trivial

/-- Each queued flip is performed at most once, by the release of its own label, in every run; a
label reads one only for the buffer last flipped to throughout the runs whose steps all fit. -/
theorem flips_label_screen (buffers : Nat) (as : List Action) :
    (∀ context q, (port.log (opened buffers) as).count (.performed q.label context q) ≤
      (port.log (opened buffers) as).count (.queued context q)) ∧
    (∀ label context q, .performed label context q ∈ port.log (opened buffers) as →
      label = q.label) ∧
    ((∀ pre, pre <+: as → Shown (port.after (opened buffers) pre)) ↔
      port.Meets Fits (opened buffers) as) := by
  have hperformed := run_performed buffers as
  refine ⟨?_, hperformed.label, ?_⟩
  · intro context q
    exact (Nat.le_add_right _ _).trans (hperformed.once context q)
  · rw [← Machine.throughout_iff_prefix]
    exact run_shown_iff (opened_own buffers) (opened_shown buffers) as

/-- A CPU flip away from a buffer a queued flip put on screen leaves the buffer's label at one. -/
theorem flip_leaves_label :
    let s := port.after (opened 2)
      [.queue 0 0 true, .release (labelOf 0) FIRST_CONTEXT, .flip 1 0]
    s.labelled 0 = 1 ∧ s.lastFlip = some 1 ∧ ¬ Shown s := by
  refine ⟨by decide, rfl, fun h => ?_⟩
  have hlast := h 0 (by decide) (by decide)
  exact absurd hlast (by decide)

end Orbistoun.Video.Flips
