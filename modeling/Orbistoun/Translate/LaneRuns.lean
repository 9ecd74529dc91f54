import Orbistoun.Lib.Sweep
import Orbistoun.Translate.Blocks.Basic

/-! # Runs of lane work

`emit_block`: where the model runs a whole wave in one invocation, each run of lane work is
emitted in one loop over the lanes. What the module then does is the hardware's order, every lane's
instruction before any lane's next, as long as an instruction is what `in_run` says it is.
-/

namespace Orbistoun.Translate

open Orbistoun.Lib.Sweep

/-- How an instruction takes part in a run of lane work. -/
inductive InRun where
  | nothing
  | lanes (reads writes : Bool)
  | alone
  deriving DecidableEq, Repr

def hasPart (name part : String) : Bool := name.toList.tails.any (part.toList.isPrefixOf ·)

/-- `name.starts_with(part)`. -/
def startsWith (name part : String) : Bool := part.toList.isPrefixOf name.toList

def dsGds : Nat := 2 ^ 17

def emitsNothing : List String :=
  ["s_waitcnt", "s_waitcnt_vscnt", "s_waitcnt_depctr", "s_clause", "s_nop", "v_nop",
    "s_inst_prefetch", "s_setprio"]

/-- The instructions that make one pass over the running lanes. -/
def laneLoopedNames : List String :=
  ["buffer_load_dword", "buffer_load_dwordx2", "buffer_load_dwordx3", "buffer_load_dwordx4",
    "buffer_store_dword", "buffer_store_dwordx2", "buffer_store_dwordx3", "buffer_store_dwordx4",
    "buffer_store_byte", "buffer_store_short", "global_load_dword", "global_load_dwordx2",
    "global_load_dwordx3", "global_load_dwordx4", "global_load_ubyte", "global_load_sbyte",
    "global_load_ushort", "global_load_sshort", "global_store_dword", "global_store_dwordx2",
    "global_store_dwordx3", "global_store_dwordx4", "global_store_byte", "global_store_short",
    "image_load", "image_load_mip", "image_store", "image_store_mip", "image_sample_lz",
    "image_sample_lz_o", "image_sample_l", "image_sample_d", "image_sample_c_lz",
    "image_gather4_lz", "image_bvh_intersect_ray", "image_bvh64_intersect_ray",
    "buffer_load_format_x", "buffer_load_format_xy", "buffer_load_format_xyz",
    "buffer_load_format_xyzw", "buffer_store_format_x", "buffer_store_format_xy",
    "buffer_store_format_xyz", "buffer_store_format_xyzw", "ds_read_b32", "ds_write_b32",
    "ds_read2_b32", "ds_write2_b32", "ds_read2_b64", "ds_write2_b64", "ds_read_b64",
    "ds_read_b96", "ds_read_b128", "ds_write_b64", "ds_write_b96", "ds_write_b128",
    "v_mov_b32_e32", "v_cndmask_b32_e32", "v_cndmask_b32_e64", "v_add_f32_e32", "v_sub_f32_e32",
    "v_subrev_f32_e32", "v_mul_f32_e32", "v_lshlrev_b32_e32", "v_lshrrev_b32_e32",
    "v_ashrrev_i32_e32", "v_add_nc_u32_e32", "v_sub_nc_u32_e32", "v_subrev_nc_u32_e32",
    "v_fmac_f32_e32", "v_or_b32_e32", "v_xor_b32_e32", "v_and_b32_e32", "v_mac_f32_e32",
    "v_mul_u32_u24_e32", "v_min_u32_e32", "v_max_u32_e32", "v_min_i32_e32", "v_max_i32_e32",
    "v_max_f32_e32", "v_min_f32_e32", "v_add_f32_e64", "v_sub_f32_e64", "v_subrev_f32_e64",
    "v_mul_f32_e64", "v_mac_f32_e64", "v_fma_f32", "v_mad_f32", "v_madak_f32", "v_madmk_f32",
    "v_fmaak_f32", "v_fmamk_f32", "v_max3_f32", "v_min3_f32", "v_med3_f32", "v_lshl_or_b32",
    "v_lshl_add_u32", "v_add3_u32", "v_add_lshl_u32", "v_and_or_b32", "v_or3_b32", "v_mul_lo_u32",
    "v_bfe_u32", "v_bfe_i32", "v_rcp_f32_e32", "v_cvt_f32_u32_e32", "v_cvt_f32_i32_e32",
    "v_cvt_i32_f32_e32", "v_cvt_u32_f32_e32", "v_sqrt_f32_e32", "v_rsq_f32_e32",
    "v_floor_f32_e32", "v_ceil_f32_e32", "v_fract_f32_e32", "v_trunc_f32_e32", "v_rndne_f32_e32",
    "v_exp_f32_e32", "v_log_f32_e32", "v_sin_f32_e32", "v_cos_f32_e32", "v_not_b32_e32",
    "v_not_b32_e64", "v_ffbh_u32_e32", "v_ffbl_b32_e32", "v_bfi_b32", "v_mad_u32_u16",
    "v_mad_i32_i24", "v_mad_u32_u24", "v_mul_hi_u32", "v_mul_hi_i32", "v_bfm_b32",
    "v_bcnt_u32_b32", "v_ldexp_f32", "v_msad_u8", "v_alignbyte_b32", "v_alignbit_b32",
    "v_movrels_b32_e32", "v_movreld_b32_e32", "ds_add_u32", "ds_add_rtn_u32", "ds_min_u32",
    "ds_max_u32", "ds_min_f32", "ds_max_f32", "buffer_atomic_add", "buffer_atomic_sub",
    "buffer_atomic_and", "buffer_atomic_or", "buffer_atomic_xor", "buffer_atomic_umin",
    "buffer_atomic_umax", "buffer_atomic_smin", "buffer_atomic_smax", "buffer_atomic_fmin",
    "buffer_atomic_fmax", "buffer_atomic_swap_x2", "buffer_atomic_or_x2"]

/-- What the target's tables say of an instruction: its name, whether its word marks a DPP form,
and whether it marks an SDWA form, which some instructions have none of. -/
structure Names where
  resolve : Instruction → Except TranslateError String
  dpp : Instruction → Bool
  sdwa : Instruction → Bool
  sdwaRefused : Instruction → String → Bool

def writesACarry (name : String) : Bool := hasPart name "_co_"

namespace Names

def laneLooped (names : Names) (i : Instruction) : Bool :=
  match names.resolve i with
  | .error _ => false
  | .ok name =>
      if names.dpp i || (startsWith name "ds_" && i.word &&& dsGds != 0) then false
      else if names.sdwa i then !names.sdwaRefused i name && !writesACarry name
      else laneLoopedNames.contains name

end Names

def namesWrite (name : String) : Bool :=
  hasPart name "store" || hasPart name "atomic" ||
    ["ds_write", "ds_add", "ds_min", "ds_max"].any (startsWith name ·)

def namesRead (name : String) : Bool :=
  ["load", "image_sample", "image_gather", "ds_read", "_intersect_ray"].any (hasPart name ·)

def inRun (names : Names) (i : Instruction) : InRun :=
  match names.resolve i with
  | .error _ => .alone
  | .ok name =>
      if emitsNothing.contains name then .nothing
      else if !names.laneLooped i then .alone
      else .lanes (namesRead name) (namesWrite name)

/-! ## Emission -/

/-- What `emit_block` has the model write. -/
inductive Emitted where
  | openLaneLoop
  | closeLaneLoop
  | instruction (i : Instruction)
  deriving DecidableEq, Repr

/-- Whether the open run ends before an instruction: what it has read and written, and the
instruction's place. -/
def endsRun : InRun → Option (Bool × Bool) → Bool
  | .nothing, _ => false
  | _, none => false
  | .alone, some _ => true
  | .lanes reads writes, some (heldReads, heldWrites) =>
      (writes && (heldReads || heldWrites)) || (reads && heldWrites)

/-- The run an instruction leaves open. `opened` is whether the model answers it opened a loop,
where it is asked. -/
def joinRun (opened : Bool) : InRun → Option (Bool × Bool) → Option (Bool × Bool)
  | .lanes reads writes, none => if opened then some (reads, writes) else none
  | .lanes reads writes, some (heldReads, heldWrites) =>
      some (heldReads || reads, heldWrites || writes)
  | _, run => run

section Emit

variable (names : Names) (opens : Nat → Bool) (translate : Instruction → Except TranslateError Unit)

/-- The rest of a block, from its instruction numbered `n`: `opens n` is what the model answers
when asked to open a loop there. -/
def emitFrom : Option (Bool × Bool) → Nat → List Instruction → Except TranslateError (List Emitted)
  | run, _, [] => .ok (if run.isSome then [.closeLaneLoop] else [])
  | run, n, i :: rest =>
      let place := inRun names i
      let ends := endsRun place run
      let held := if ends then none else run
      let next := joinRun (opens n) place held
      let closing := if ends then [.closeLaneLoop] else []
      let opening := if held.isNone && next.isSome then [.openLaneLoop] else []
      match translate i with
      | .error e => .error e
      | .ok _ => (emitFrom next (n + 1) rest).map (closing ++ opening ++ .instruction i :: ·)

def emitBlock (block : List Instruction) : Except TranslateError (List Emitted) :=
  emitFrom names opens translate none 0 block

end Emit

/-! ## What is run -/

/-- A wave: the scalar registers and masks, each lane's registers, and the memory and local
share. -/
structure Wave (S L M : Type*) where
  scalars : S
  lanes : List L
  memory : M

/-- What instructions do: over the whole wave, and, where one has such a pass, to a single lane. -/
structure Hardware (S L M : Type*) where
  whole : Instruction → Wave S L M → Wave S L M
  pass : Instruction → Option (S → Pass L M)

variable {S L M : Type*}

def Wave.through (w : Wave S L M) (f : S → Pass L M) : Wave S L M :=
  let swept := sweep (f w.scalars) w.lanes w.memory
  { w with lanes := swept.1, memory := swept.2 }

namespace Hardware

/-- Each instruction over all lanes before the next. -/
def inOrder (hw : Hardware S L M) (block : List Instruction) (w : Wave S L M) : Wave S L M :=
  block.foldl (fun w i => hw.whole i w) w

/-- What was emitted, run: inside a loop an instruction is one lane's pass. An instruction with no
such pass there, or a loop that does not match, is no module. -/
def execute (hw : Hardware S L M) :
    List Emitted → Option (S → Pass L M) → Wave S L M → Option (Wave S L M)
  | [], none, w => some w
  | .openLaneLoop :: rest, none, w => execute hw rest (some fun _ => idle) w
  | .closeLaneLoop :: rest, some body, w => execute hw rest none (w.through body)
  | .instruction i :: rest, none, w => execute hw rest none (hw.whole i w)
  | .instruction i :: rest, some body, w =>
      match hw.pass i with
      | none => none
      | some f => execute hw rest (some fun s => andThen (body s) (f s)) w
  | _, _, _ => none

/-- The instructions are what `in_run` says: one that emits nothing does nothing, and one a loop
may hold is its pass lane after lane, reaching the memory only as it says. -/
structure Classified (hw : Hardware S L M) (names : Names) : Prop where
  nothing : ∀ {i}, inRun names i = .nothing →
    (∀ w, hw.whole i w = w) ∧ hw.pass i = some fun _ => idle
  lanes : ∀ {i reads writes}, inRun names i = .lanes reads writes → ∃ f, hw.pass i = some f ∧
    (∀ w, hw.whole i w = w.through f) ∧ (writes = false → ∀ s, Leaves (f s)) ∧
      (reads = false → writes = false → ∀ s, Blind (f s))

end Hardware

/-- What is known of an open run's body: without a write it leaves the memory, and without any
access it is told nothing by it. -/
structure Holds (heldReads heldWrites : Bool) (body : S → Pass L M) : Prop where
  leaves : heldWrites = false → ∀ s, Leaves (body s)
  blind : heldReads = false → heldWrites = false → ∀ s, Blind (body s)

theorem holds_idle (heldReads heldWrites : Bool) :
    Holds heldReads heldWrites (fun _ : S => (idle : Pass L M)) :=
  ⟨fun _ _ => idle_leaves, fun _ _ _ => idle_blind⟩

theorem Holds.joined {heldReads heldWrites reads writes : Bool} {body f : S → Pass L M}
    (hbody : Holds heldReads heldWrites body) (hf : Holds reads writes f)
    (h : endsRun (.lanes reads writes) (some (heldReads, heldWrites)) = false) :
    (∀ s, Apart (body s) (f s)) ∧
      Holds (heldReads || reads) (heldWrites || writes) (fun s => andThen (body s) (f s)) := by
  have hheld : Holds (heldReads || reads) (heldWrites || writes)
      (fun s => andThen (body s) (f s)) := by
    constructor
    · intro hw s
      simp only [Bool.or_eq_false_iff] at hw
      exact (hbody.leaves hw.1 s).andThen (hf.leaves hw.2 s)
    · intro hr hw s
      simp only [Bool.or_eq_false_iff] at hr hw
      exact (hbody.blind hr.1 hw.1 s).andThen (hf.blind hr.2 hw.2 s)
  constructor
  · intro s
    cases writes with
    | true =>
      -- A write joins only a run with no access before it.
      have hnone : heldReads = false ∧ heldWrites = false := by simp_all [endsRun]
      exact Or.inr (Or.inl ⟨hbody.leaves hnone.2 s, hbody.blind hnone.1 hnone.2 s⟩)
    | false =>
      cases reads with
      | true =>
        have hheldWrites : heldWrites = false := by simpa [endsRun] using h
        exact Or.inl ⟨hbody.leaves hheldWrites s, hf.leaves rfl s⟩
      | false => exact Or.inr (Or.inr ⟨hf.leaves rfl s, hf.blind rfl rfl s⟩)
  · exact hheld

namespace Wave

theorem through_idle (w : Wave S L M) : w.through (fun _ => idle) = w := by
  simp [through, sweep_idle]

theorem through_through (w : Wave S L M) {f g : S → Pass L M} (h : ∀ s, Apart (f s) (g s)) :
    (w.through f).through g = w.through (fun s => andThen (f s) (g s)) := by
  show Wave.mk _ _ _ = Wave.mk _ _ _
  rw [sweep_andThen (h w.scalars)]
  rfl

end Wave

namespace Hardware

variable {hw : Hardware S L M} {names : Names}

/-- The loop the model has open, as its body so far, for the run `emit_block` has open. -/
def Open : Option (Bool × Bool) → Option (S → Pass L M) → Prop
  | none, none => True
  | some (heldReads, heldWrites), some body => Holds heldReads heldWrites body
  | _, _ => False

/-- The wave once the open loop has been through its lanes. -/
def settled (body : Option (S → Pass L M)) (w : Wave S L M) : Wave S L M :=
  match body with
  | none => w
  | some body => w.through body

section Run

variable {opens : Nat → Bool} {translate : Instruction → Except TranslateError Unit}

theorem emitFrom_cons_ok {run : Option (Bool × Bool)} {n : Nat} {i : Instruction}
    {rest : List Instruction} {out : List Emitted}
    (h : emitFrom names opens translate run n (i :: rest) = .ok out) :
    let held := if endsRun (inRun names i) run then none else run
    let next := joinRun (opens n) (inRun names i) held
    ∃ out', emitFrom names opens translate next (n + 1) rest = .ok out' ∧
      out = (if endsRun (inRun names i) run then [Emitted.closeLaneLoop] else []) ++
        (if held.isNone && next.isSome then [Emitted.openLaneLoop] else []) ++
          Emitted.instruction i :: out' := by
  intro held next
  unfold emitFrom at h
  cases ht : translate i with
  | error e => simp [ht] at h
  | ok _ =>
    simp only [ht] at h
    cases hrest : emitFrom names opens translate next (n + 1) rest with
    | error e => simp [held, next, hrest, Except.map] at h
    | ok out' =>
      simp only [held, next] at hrest
      simp only [hrest, Except.map, Except.ok.injEq] at h
      exact ⟨out', rfl, h.symm⟩

theorem execute_unheld (hc : hw.Classified names) (i : Instruction) (opened : Bool)
    (out : List Emitted) (w : Wave S L M) :
    ∃ body w', Open (joinRun opened (inRun names i) none) body ∧ settled body w' = hw.whole i w ∧
      hw.execute ((if (joinRun opened (inRun names i) none).isSome then [Emitted.openLaneLoop]
        else []) ++ Emitted.instruction i :: out) none w = hw.execute out body w' := by
  cases hplace : inRun names i with
  | nothing => exact ⟨none, hw.whole i w, trivial, rfl, rfl⟩
  | alone => exact ⟨none, hw.whole i w, trivial, rfl, rfl⟩
  | lanes reads writes =>
    cases opened with
    | false => exact ⟨none, hw.whole i w, trivial, rfl, rfl⟩
    | true =>
      obtain ⟨f, hpass, hwhole, hleaves, hblind⟩ := hc.lanes hplace
      have hidle : Holds false false (fun _ : S => (idle : Pass L M)) := holds_idle false false
      obtain ⟨hapart, hholds⟩ := hidle.joined ⟨hleaves, hblind⟩ (by simp [endsRun])
      refine ⟨some fun s => andThen idle (f s), w, ?_, ?_, ?_⟩
      · simpa [joinRun, Open] using hholds
      · show w.through (fun s => andThen idle (f s)) = hw.whole i w
        rw [← w.through_through hapart, w.through_idle, hwhole]
      · simp [joinRun, execute, hpass]

theorem execute_held (hc : hw.Classified names) {i : Instruction} (opened : Bool)
    {held : Bool × Bool} {body : S → Pass L M} (hbody : Holds held.1 held.2 body)
    (hends : endsRun (inRun names i) (some held) = false) (out : List Emitted) (w : Wave S L M) :
    ∃ body', Open (joinRun opened (inRun names i) (some held)) (some body') ∧
      w.through body' = hw.whole i (w.through body) ∧
      hw.execute (.instruction i :: out) (some body) w = hw.execute out (some body') w := by
  cases hplace : inRun names i with
  | alone => simp [hplace, endsRun] at hends
  | nothing =>
    obtain ⟨hwhole, hpass⟩ := hc.nothing hplace
    obtain ⟨hapart, hholds⟩ := hbody.joined (holds_idle false false) (by simp [endsRun])
    refine ⟨fun s => andThen (body s) idle, ?_, ?_, ?_⟩
    · simpa [joinRun, Open] using hholds
    · rw [← w.through_through hapart, hwhole, Wave.through_idle]
    · simp [execute, hpass]
  | lanes reads writes =>
    obtain ⟨f, hpass, hwhole, hleaves, hblind⟩ := hc.lanes hplace
    rw [hplace] at hends
    obtain ⟨hapart, hholds⟩ := hbody.joined ⟨hleaves, hblind⟩ hends
    refine ⟨fun s => andThen (body s) (f s), ?_, ?_, ?_⟩
    · simpa [joinRun, Open] using hholds
    · rw [← w.through_through hapart, hwhole]
    · simp [execute, hpass]

theorem execute_emitFrom (hc : hw.Classified names) {block : List Instruction} :
    ∀ {run n out body}, emitFrom names opens translate run n block = .ok out → Open run body →
      ∀ w : Wave S L M, hw.execute out body w = some (hw.inOrder block (settled body w)) := by
  induction block with
  | nil =>
    intro run n out body hout hopen w
    obtain rfl : (if run.isSome then [.closeLaneLoop] else []) = out := by
      simpa [emitFrom] using hout
    match run, body, hopen with
    | none, none, _ => rfl
    | some _, some body, _ => rfl
  | cons i rest ih =>
    intro run n out body hout hopen w
    obtain ⟨out', hrest, rfl⟩ := emitFrom_cons_ok hout
    match run, body, hopen with
    | none, none, _ =>
      obtain ⟨body', w', hopen', hsettled, hstep⟩ := execute_unheld hc i (opens n) out' w
      have hnever : endsRun (inRun names i) none = false := by cases inRun names i <;> rfl
      simp only [hnever] at hrest ⊢
      have hgo := ih hrest hopen' w'
      rw [hsettled] at hgo
      exact hstep.trans hgo
    | some held, some body, hbody =>
      cases hends : endsRun (inRun names i) (some held) with
      | true =>
        -- The loop is closed first, and the instruction meets no run.
        simp only [hends] at hrest ⊢
        obtain ⟨body', w', hopen', hsettled, hstep⟩ :=
          execute_unheld hc i (opens n) out' (w.through body)
        have hgo := ih hrest hopen' w'
        rw [hsettled] at hgo
        exact hstep.trans hgo
      | false =>
        simp only [hends] at hrest ⊢
        obtain ⟨body', hopen', hthrough, hstep⟩ := execute_held hc (opens n) hbody hends out' w
        have hgo := ih hrest hopen' w
        simp only [settled, hthrough] at hgo
        exact hstep.trans hgo

theorem emitFrom_ok_iff (block : List Instruction) (run : Option (Bool × Bool)) (n : Nat) :
    (∃ out, emitFrom names opens translate run n block = .ok out) ↔
      ∀ i ∈ block, translate i = .ok () := by
  induction block generalizing run n with
  | nil => simp [emitFrom]
  | cons i rest ih =>
    rw [List.forall_mem_cons]
    cases ht : translate i with
    | error e => simp [emitFrom, ht]
    | ok _ =>
      rw [← ih (joinRun (opens n) (inRun names i)
        (if endsRun (inRun names i) run then none else run)) (n + 1)]
      constructor
      · intro hout
        obtain ⟨out, hout⟩ := hout
        obtain ⟨out', hrest, -⟩ := emitFrom_cons_ok hout
        exact ⟨rfl, out', hrest⟩
      · intro hout
        obtain ⟨-, out', hrest⟩ := hout
        simp [emitFrom, ht, hrest, Except.map]

/-- Lane-major emission keeps the hardware's order. -/
theorem emitBlock_in_order (hc : hw.Classified names) (opens : Nat → Bool)
    (translate : Instruction → Except TranslateError Unit) (block : List Instruction) :
    ((∃ out, emitBlock names opens translate block = .ok out) ↔
      ∀ i ∈ block, translate i = .ok ()) ∧
    ∀ out, emitBlock names opens translate block = .ok out → ∀ w : Wave S L M,
      hw.execute out none w = some (hw.inOrder block w) := by
  constructor
  · exact emitFrom_ok_iff block none 0
  · intro out hout w
    have hopen : Open (none : Option (Bool × Bool)) (none : Option (S → Pass L M)) := trivial
    exact execute_emitFrom hc hout hopen w

end Run

/-- A wave of counters over one word of memory. What writes adds the lane's counter to the word,
what only reads takes the word, other lane work counts, and what stands alone turns the lanes
around. -/
def counting (names : Names) : Hardware Unit Nat Nat where
  whole i w :=
    match inRun names i with
    | .nothing => w
    | .lanes reads writes => w.through fun _ => accessed reads writes
    | .alone => { w with lanes := w.lanes.reverse }
  pass i :=
    match inRun names i with
    | .nothing => some fun _ => idle
    | .lanes reads writes => some fun _ => accessed reads writes
    | .alone => none
where
  accessed (reads writes : Bool) : Pass Nat Nat := fun l m =>
    if writes then (l, m + l) else if reads then (m, m) else (l + 1, m)

theorem counting_classified (names : Names) : (counting names).Classified names := by
  constructor
  · intro i hplace
    exact ⟨fun w => by simp [counting, hplace], by simp [counting, hplace]⟩
  · intro i reads writes hplace
    refine ⟨fun _ => counting.accessed reads writes, by simp [counting, hplace],
      fun w => by simp [counting, hplace], ?_, ?_⟩
    · rintro rfl s l m
      cases reads <;> rfl
    · rintro rfl rfl s l m m'
      rfl

def named (mnemonics : List String) : Names where
  resolve i := .ok (mnemonics.getD i.opcode "")
  dpp _ := false
  sdwa _ := false
  sdwaRefused _ _ := false

def numbered (opcode : Nat) : Instruction := { (default : Instruction) with opcode := opcode }

/-- A write ends the run that reads, and a compare ends the write's. -/
theorem emitBlock_in_order_cut :
    (counting (named ["ds_read_b32", "s_nop", "ds_write_b32", "v_cmp_eq_u32_e32"])).execute
      ([.openLaneLoop, .instruction (numbered 0), .instruction (numbered 1), .closeLaneLoop,
        .openLaneLoop, .instruction (numbered 2), .closeLaneLoop, .instruction (numbered 3)])
      none ⟨(), [1, 2], 5⟩ =
    some ((counting (named ["ds_read_b32", "s_nop", "ds_write_b32", "v_cmp_eq_u32_e32"])).inOrder
      [numbered 0, numbered 1, numbered 2, numbered 3] ⟨(), [1, 2], 5⟩) :=
  (emitBlock_in_order (counting_classified _) (fun _ => true) (fun _ => .ok ())
    [numbered 0, numbered 1, numbered 2, numbered 3]).2 _ rfl _

end Hardware

end Orbistoun.Translate
