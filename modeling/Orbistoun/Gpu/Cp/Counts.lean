import Orbistoun.Gpu.Cp.Covered

/-! # What is counted of a packet

A packet counts only when it is carried out: a fill or a copy, a release, a wait that held,
a dispatch memory ran, or the records an indirect draw drew. Where it stops it counts
nothing but bytes.
-/

namespace Orbistoun.Gpu.Cp

open Lib

def Counts.packets (c : Counts) : Counts := { c with bytesWritten := 0 }

@[simp] theorem Counts.packets_add (a b : Counts) : (a + b).packets = a.packets + b.packets := rfl

@[simp] theorem Counts.packets_zero : (0 : Counts).packets = 0 := rfl

namespace Work

variable {α β : Type}

/-- Whatever is answered, work that is done counts as told, and work that stops counts
nothing. -/
def Counted (w : Work α) (post : Turns → α → Counts → Prop) : Prop :=
  ∀ turns x c, Dialogue.Goes w turns (x, c) →
    match x with
    | .ok a => post turns a c.packets
    | .error _ => c.packets = 0

theorem counted_pure {a : α} {post : Turns → α → Counts → Prop} (h : post [] a 0) :
    Counted (pure a) post := by
  rintro turns x c ⟨rfl, hx⟩
  cases hx
  exact h

theorem counted_stop (s : Stop) {post : Turns → α → Counts → Prop} : Counted (stop s) post := by
  rintro turns x c ⟨rfl, hx⟩
  cases hx
  rfl

theorem counted_count {counts : Counts} {post : Turns → Unit → Counts → Prop}
    (h : post [] () counts.packets) : Counted (count counts) post := by
  rintro turns x c ⟨rfl, hx⟩
  cases hx
  exact h

theorem counted_ask (q : Call) {post : Turns → q.Answer → Counts → Prop}
    (h : ∀ a, post [⟨q, a⟩] a 0) : Counted (ask q) post := by
  rintro turns x c ⟨a, rest, rfl, rfl, hx⟩
  cases hx
  exact h a

theorem counted_bind {w : Work α} {f : α → Work β} {P : Turns → α → Prop}
    {post : Turns → β → Counts → Prop} (hw : Counted w (fun turns a c => c = 0 ∧ P turns a))
    (hf : ∀ first a, P first a → Counted (f a) (fun rest b c => post (first ++ rest) b c)) :
    Counted (w >>= f) post := by
  intro turns x c hgoes
  obtain ⟨⟨y, c₁⟩, first, rest, rfl, hfirst, hrest⟩ := Dialogue.goes_bind.mp hgoes
  have h₁ := hw _ _ _ hfirst
  cases y with
  | error s =>
      obtain ⟨rfl, hx⟩ := hrest
      cases hx
      exact h₁
  | ok a =>
      obtain ⟨⟨z, c₂⟩, second, last, rfl, hsecond, rfl, hx⟩ := Dialogue.goes_bind.mp hrest
      cases hx
      have h₂ := hf first a h₁.2 _ _ _ hsecond
      rw [List.append_nil]
      cases x with
      | error s =>
          show (c₁ + c₂).packets = 0
          rw [Counts.packets_add, h₁.1, zero_add]
          exact h₂
      | ok b =>
          show post (first ++ second) b (c₁ + c₂).packets
          rw [Counts.packets_add, h₁.1, zero_add]
          exact h₂

/-- Work that is done counts what it is said to, whatever is answered. -/
abbrev Costs (w : Work α) (n : Counts) : Prop := Counted w (fun _ _ c => c = n)

theorem costs_bind {w : Work α} {f : α → Work β} {n : Counts} (hw : Costs w 0)
    (hf : ∀ a, Costs (f a) n) : Costs (w >>= f) n :=
  counted_bind (P := fun _ _ => True)
    (fun turns x c hgoes => by
      have h := hw turns x c hgoes
      cases x with
      | error s => exact h
      | ok a => exact ⟨h, trivial⟩)
    (fun _ a _ => hf a)

theorem costs_pure (a : α) : Costs (pure a) 0 := counted_pure rfl

theorem costs_stop (s : Stop) {n : Counts} : Costs (stop s : Work α) n := counted_stop s

theorem costs_ask (q : Call) : Costs (ask q) 0 := counted_ask q (fun _ => rfl)

theorem costs_count (counts : Counts) : Costs (count counts) counts.packets := counted_count rfl

theorem costs_ofOption (s : Stop) (o : Option α) : Costs (ofOption s o) 0 := by
  cases o with
  | none => exact costs_stop s
  | some a => exact costs_pure a

/-- Past a decoding only what it gave is counted. -/
theorem costs_ofExcept_bind {e : Except Stop α} {f : α → Work β} {n : Counts}
    (h : ∀ a, e = .ok a → Costs (f a) n) : Costs (ofExcept e >>= f) n := by
  cases e with
  | error s => exact (counted_stop s : Costs (stop s) n)
  | ok a =>
      exact counted_bind (P := fun _ b => b = a) (counted_pure ⟨rfl, rfl⟩)
        (fun _ b hb => hb ▸ h a rfl)

theorem costs_read (address length : Nat) : Costs (read address length) 0 :=
  costs_bind (costs_ask _) (fun _ => costs_ofOption _ _)

theorem costs_write (address : Nat) (bytes : List Byte) : Costs (write address bytes) 0 := by
  refine costs_bind (costs_ask _) (fun done => ?_)
  cases (done : Bool)
  · exact costs_stop _
  · exact costs_pure _

theorem costs_writeAny (address : Nat) (bytes : List Byte) : Costs (writeAny address bytes) 0 := by
  unfold writeAny
  split
  · exact costs_pure _
  · exact costs_write _ _

end Work

open Work

/-! ## Packets that always count the same -/

theorem dmaMove_costs (dma : DmaData) : Costs (dmaMove dma) 0 := by
  unfold dmaMove
  split
  · exact costs_pure _
  · split
    · exact costs_ask _
    · split
      · refine costs_bind (costs_ask _) (fun word => ?_)
        split
        · exact costs_ask _
        · exact costs_pure _
      · split
        · exact costs_ask _
        · exact costs_stop _

theorem dmaMissing_costs (dma : DmaData) (n : Counts) : Costs (dmaMissing dma) n := by
  unfold dmaMissing
  split
  · refine costs_bind (costs_ask _) (fun bytes => ?_)
    split <;> exact costs_stop _
  · exact costs_stop _

theorem dmaPrefetch_costs {body : List Nat} {w : Work Unit} (h : dmaPrefetch body = some w) :
    Costs w 0 := by
  unfold dmaPrefetch at h
  split at h
  · split at h
    · cases h
    · split at h
      · cases h
        exact costs_stop _
      · cases h
        split
        · exact costs_pure _
        · exact costs_bind (costs_read _ _) (fun _ => costs_pure _)
  · cases h

/-- What a `DMA_DATA` counts: a prefetch nothing, else a fill or a copy. -/
def dmaCounts (body : List Nat) : Counts :=
  match dmaPrefetch body, decodeDmaData body with
  | none, .ok dma => if dma.srcSel == SRC_SEL_DATA then { fills := 1 } else { copies := 1 }
  | _, _ => 0

theorem dmaData_costs (body : List Nat) : Costs (dmaData body) (dmaCounts body) := by
  unfold dmaData dmaCounts
  cases hprefetch : dmaPrefetch body with
  | some w => exact dmaPrefetch_costs hprefetch
  | none =>
      refine costs_ofExcept_bind (fun dma hdecode => costs_bind (dmaMove_costs dma) (fun done => ?_))
      rw [hdecode]
      dsimp only
      split
      · split <;> exact costs_count _
      · exact dmaMissing_costs dma _

theorem releasedBytes_costs (dataSel dataLow dataHigh : Nat) :
    Costs (releasedBytes dataSel dataLow dataHigh) 0 := by
  unfold releasedBytes
  split
  · exact costs_pure _
  · split
    · exact costs_pure _
    · split
      · exact costs_pure _
      · split
        · exact costs_bind (costs_ask _) (fun _ => costs_pure _)
        · exact costs_stop _

theorem raiseInterrupt_costs (selectors destination context : Nat) :
    Costs (raiseInterrupt selectors destination context) 0 := by
  unfold raiseInterrupt
  split
  · exact costs_bind (costs_ask _) (fun _ => costs_pure _)
  · exact costs_pure _

theorem releaseMem_costs (body : List Nat) : Costs (releaseMem body) { releases := 1 } := by
  unfold releaseMem
  split
  · exact costs_bind (releasedBytes_costs _ _ _) (fun written => costs_bind (costs_writeAny _ _)
      (fun _ => costs_bind (raiseInterrupt_costs _ _ _) (fun _ => costs_count _)))
  · exact costs_stop _

theorem contextControl_costs (body : List Nat) : Costs (contextControl body) 0 := by
  unfold contextControl
  split
  · split
    · exact costs_stop _
    · exact costs_pure _
  · exact costs_stop _

theorem writeData_costs (body : List Nat) : Costs (writeData body) 0 := by
  unfold writeData
  split
  · dsimp only
    split
    · exact costs_pure _
    · split
      · exact costs_stop _
      · exact costs_bind (costs_writeAny _ _) (fun _ => costs_count _)
  · exact costs_stop _

theorem writeCounters_costs (slots : List (Nat × Nat)) : Costs (writeCounters slots) 0 := by
  induction slots with
  | nil => exact costs_pure _
  | cons slot slots ih =>
      exact costs_bind (costs_write _ _) (fun _ => costs_bind (costs_count _) (fun _ => ih))

theorem eventWrite_costs (body : List Nat) : Costs (eventWrite body) 0 := by
  unfold eventWrite
  split
  · dsimp only
    split
    · exact costs_bind (costs_ask _) (fun _ => costs_bind (costs_ofOption _ _)
        (fun _ => writeCounters_costs _))
    · split
      · exact costs_stop _
      · exact costs_bind (costs_ask _) (fun _ => costs_bind (costs_ofOption _ _)
          (fun _ => writeCounters_costs _))
  · exact costs_stop _

theorem storeFilled_costs (storeTo held : Option Nat) : Costs (storeFilled storeTo held) 0 := by
  unfold storeFilled
  split
  · exact costs_pure _
  · exact costs_bind (costs_ofOption _ _) (fun _ => costs_bind (costs_write _ _)
      (fun _ => costs_count _))

theorem updatedOffset_costs (source : OffsetSource) : Costs (updatedOffset source) 0 := by
  cases source with
  | packet bytes => exact costs_pure _
  | memory address => exact costs_bind (costs_read _ _) (fun _ => costs_pure _)
  | keep => exact costs_pure _

theorem streamoutUpdate_costs (body : List Nat) : Costs (streamoutUpdate body) 0 :=
  costs_bind (costs_ofOption _ _) (fun _ => costs_bind (updatedOffset_costs _) (fun _ =>
    costs_bind (costs_ask _) (fun _ => costs_bind (costs_ofOption _ _)
      (fun _ => storeFilled_costs _ _))))

theorem pollMemory_costs (function polled length reference mask : Nat) :
    Costs (pollMemory function polled length reference mask) { waits := 1 } := by
  refine costs_bind (costs_read _ _) (fun bytes => costs_bind (costs_ofOption _ _) (fun holds => ?_))
  split
  · exact costs_count _
  · exact costs_stop _

theorem waitRegMem_costs (body : List Nat) : Costs (waitRegMem body) { waits := 1 } := by
  unfold waitRegMem
  split
  · split
    · split
      · exact costs_count _
      · exact costs_stop _
    · exact pollMemory_costs _ _ _ _ _
  · exact costs_stop _

theorem waitRegMem64_costs (body : List Nat) : Costs (waitRegMem64 body) { waits := 1 } := by
  unfold waitRegMem64
  split
  · split
    · exact costs_stop _
    · exact pollMemory_costs _ _ _ _ _
  · exact costs_stop _

/-! ## Packets that count by what memory answered -/

def ranDispatch : Dialogue.Turn Call.Answer → Bool
  | ⟨.runDispatch _, accepted⟩ => accepted
  | _ => false

/-- Memory read a record that draws: a count and instances that are not zero. -/
def readDrawnRecord : Dialogue.Turn Call.Answer → Bool
  | ⟨.read _ _, some bytes⟩ =>
      match recordFields (wordsOf bytes.val) with
      | some (count, instances, _) => !(count == 0 || instances == 0)
      | none => false
  | _ => false

theorem dispatchDirect_counted (stream : List Byte) (offset : Nat) (body : List Nat) :
    Counted (dispatchDirect stream offset body)
      (fun turns _ c => c = { dispatches := turns.countP ranDispatch }) := by
  unfold dispatchDirect
  split
  · refine counted_bind (P := fun turns accepted => turns = [⟨_, accepted⟩])
      (counted_ask _ (fun a => ⟨rfl, rfl⟩)) ?_
    rintro first accepted rfl
    split
    · next h =>
      cases h
      exact counted_count rfl
    · refine counted_bind (P := fun _ _ => True) (counted_ask _ (fun a => ⟨rfl, trivial⟩))
        (fun _ polled _ => ?_)
      split <;> exact counted_stop _
  · exact counted_stop _

theorem read_counted (address length : Nat) :
    Counted (Work.read address length) (fun turns bytes c =>
      c = 0 ∧ ∃ h, turns = [⟨.read address length, some ⟨bytes, h⟩⟩]) := by
  refine counted_bind (P := fun turns a => turns = [⟨_, a⟩]) (counted_ask _ (fun a => ⟨rfl, rfl⟩)) ?_
  rintro first (_ | bytes) rfl
  · exact counted_stop _
  · exact counted_pure ⟨rfl, bytes.property, rfl⟩

theorem ofOption_counted {α : Type} (s : Stop) (o : Option α) :
    Counted (Work.ofOption s o) (fun turns _ c => c = 0 ∧ turns = []) := by
  cases o with
  | none => exact counted_stop s
  | some a => exact counted_pure ⟨rfl, rfl⟩

theorem ofExcept_counted {α : Type} (e : Except Stop α) :
    Counted (Work.ofExcept e) (fun turns _ c => c = 0 ∧ turns = []) := by
  cases e with
  | error s => exact counted_stop s
  | ok a => exact counted_pure ⟨rfl, rfl⟩

theorem dispatchIndirect_counted (stream : List Byte) (offset : Nat) (body : List Nat) :
    Counted (dispatchIndirect stream offset body)
      (fun turns _ c => c = { dispatches := turns.countP ranDispatch }) := by
  refine counted_bind (ofOption_counted _ _) ?_
  rintro first grid rfl
  refine counted_bind (read_counted _ _) ?_
  rintro first bytes ⟨hlength, rfl⟩
  dsimp only
  split
  · refine counted_bind (P := fun turns a => turns = [⟨_, a⟩]) (counted_ask _ (fun a => ⟨rfl, rfl⟩)) ?_
    rintro first program rfl
    exact counted_pure rfl
  · refine counted_bind (P := fun turns a => turns = [⟨_, a⟩]) (counted_ask _ (fun a => ⟨rfl, rfl⟩)) ?_
    rintro first accepted rfl
    split
    · next h =>
      cases h
      exact counted_count rfl
    · exact counted_stop _

theorem readDrawnRecord_eq (address : Nat) {length : Nat} {bytes : List Byte}
    (h : bytes.length = length) (draw : IndirectDraw) (index maxSize : Nat) :
    readDrawnRecord ⟨.read address length, some ⟨bytes, h⟩⟩ =
      (drawWords draw (wordsOf bytes) index maxSize).isSome := by
  unfold readDrawnRecord drawWords
  dsimp only
  cases recordFields (wordsOf bytes) with
  | none => rfl
  | some fields =>
      dsimp only
      cases hzero : fields.1 == 0 || fields.2.1 == 0 <;> simp

theorem readRecords_counted (draw : IndirectDraw) (base maxSize left index : Nat) :
    Counted (readRecords draw base maxSize left index)
      (fun turns found c => c = 0 ∧ found.2 = turns.countP readDrawnRecord) := by
  induction left generalizing index with
  | zero => exact counted_pure ⟨rfl, rfl⟩
  | succ left ih =>
      refine counted_bind (read_counted _ _) ?_
      rintro first bytes ⟨hlength, rfl⟩
      refine counted_bind (ih (index + 1)) ?_
      rintro rest ⟨words, drawn⟩ hdrawn
      dsimp only at hdrawn ⊢
      have hrecord := readDrawnRecord_eq (wrap64 (base + index * draw.stride)) hlength draw index maxSize
      split
      · next own hown =>
        rw [hown] at hrecord
        refine counted_pure ⟨rfl, ?_⟩
        rw [List.append_nil, List.singleton_append, List.countP_cons_of_pos hrecord, hdrawn]
      · next hown =>
        rw [hown] at hrecord
        refine counted_pure ⟨rfl, ?_⟩
        rw [List.append_nil, List.singleton_append, List.countP_cons_of_neg (by rw [hrecord]; simp),
          hdrawn]

theorem recordCount_counted (count : Count) :
    Counted (recordCount count) (fun turns _ c => c = 0 ∧ turns.countP readDrawnRecord = 0) := by
  cases count with
  | packet count => exact counted_pure ⟨rfl, rfl⟩
  | memory most address =>
      refine counted_bind (read_counted _ _) ?_
      rintro first bytes ⟨hlength, rfl⟩
      refine counted_pure ⟨rfl, ?_⟩
      -- Four bytes are no record.
      have hwords : (wordsOf bytes).length = 1 := by rw [length_wordsOf, hlength]
      have hrecord : readDrawnRecord ⟨.read address 4, some ⟨bytes, hlength⟩⟩ = false := by
        obtain ⟨word, hword⟩ := List.length_eq_one_iff.mp hwords
        simp only [readDrawnRecord, hword]
        rfl
      rw [List.append_nil, List.countP_singleton, hrecord]
      rfl

theorem runIndirectDraw_counted (stream : List Byte) (offset opcode : Nat) (body : List Nat) :
    Counted (runIndirectDraw stream offset opcode body)
      (fun turns _ c => c = { draws := turns.countP readDrawnRecord }) := by
  refine counted_bind (ofExcept_counted _) ?_
  rintro first draw rfl
  refine counted_bind (ofOption_counted _ _) ?_
  rintro first base rfl
  refine counted_bind (recordCount_counted _) ?_
  intro counting count hcount
  refine counted_bind (readRecords_counted _ _ _ _ _) ?_
  rintro reading ⟨words, drawn⟩ hdrawn
  dsimp only at hdrawn ⊢
  split
  · next hzero =>
    refine counted_pure ?_
    rw [List.append_nil, List.nil_append, List.nil_append, List.countP_append, hcount, ← hdrawn,
      beq_iff_eq.mp hzero]
    rfl
  · refine counted_bind (ofOption_counted _ _) ?_
    rintro first segment rfl
    refine counted_bind (P := fun turns a => turns = [⟨_, a⟩]) (counted_ask _ (fun a => ⟨rfl, rfl⟩)) ?_
    rintro first accepted rfl
    split
    · refine counted_count ?_
      rw [List.nil_append, List.nil_append, List.nil_append, List.append_nil, List.countP_append,
        List.countP_append, hcount, ← hdrawn]
      show ({ draws := drawn } : Counts) = { draws := 0 + (drawn + 0) }
      simp
    · exact counted_stop _

/-- What a packet with an effect, other than a draw, counts when it is carried out. -/
def ownCounts (opcode : Nat) (body : List Nat) (turns : Turns) : Counts :=
  if opcode == DMA_DATA then dmaCounts body
  else if opcode == RELEASE_MEM then { releases := 1 }
  else if opcode == WAIT_REG_MEM || opcode == WAIT_REG_MEM64 then { waits := 1 }
  else if opcode == DISPATCH_DIRECT || opcode == DISPATCH_INDIRECT then
    { dispatches := turns.countP ranDispatch }
  else if isIndirectDraw opcode then { draws := turns.countP readDrawnRecord }
  else 0

/-- A packet that is no indirect draw, and none of the others, is not carried out. -/
theorem runIndirectDraw_of_not (stream : List Byte) (offset : Nat) {opcode : Nat} (body : List Nat)
    (h : isIndirectDraw opcode = false) (n : Counts) :
    Costs (runIndirectDraw stream offset opcode body) n := by
  simp only [isIndirectDraw, Bool.or_eq_false_iff] at h
  obtain ⟨⟨⟨h₁, h₂⟩, h₃⟩, h₄⟩ := h
  have hdecode : IndirectDraw.decode opcode body = .error .needsGpu := by
    simp [IndirectDraw.decode, h₁, h₂, h₃, h₄]
  refine costs_ofExcept_bind (fun draw hdraw => ?_)
  rw [hdecode] at hdraw
  cases hdraw

theorem carryOut_counted (stream : List Byte) (offset opcode : Nat) (body : List Nat) :
    Counted (carryOut stream offset opcode body) (fun turns _ c => c = ownCounts opcode body turns) := by
  unfold carryOut
  by_cases hdma : (opcode == DMA_DATA) = true
  · rw [if_pos hdma, beq_iff_eq.mp hdma]
    exact dmaData_costs body
  rw [if_neg hdma]
  by_cases hrelease : (opcode == RELEASE_MEM) = true
  · rw [if_pos hrelease, beq_iff_eq.mp hrelease]
    exact releaseMem_costs body
  rw [if_neg hrelease]
  by_cases hwait : (opcode == WAIT_REG_MEM) = true
  · rw [if_pos hwait, beq_iff_eq.mp hwait]
    exact waitRegMem_costs body
  rw [if_neg hwait]
  by_cases hwait64 : (opcode == WAIT_REG_MEM64) = true
  · rw [if_pos hwait64, beq_iff_eq.mp hwait64]
    exact waitRegMem64_costs body
  rw [if_neg hwait64]
  by_cases hcontext : (opcode == CONTEXT_CONTROL) = true
  · rw [if_pos hcontext, beq_iff_eq.mp hcontext]
    exact contextControl_costs body
  rw [if_neg hcontext]
  by_cases hdirect : (opcode == DISPATCH_DIRECT) = true
  · rw [if_pos hdirect, beq_iff_eq.mp hdirect]
    exact dispatchDirect_counted stream offset body
  rw [if_neg hdirect]
  by_cases hindirect : (opcode == DISPATCH_INDIRECT) = true
  · rw [if_pos hindirect, beq_iff_eq.mp hindirect]
    exact dispatchIndirect_counted stream offset body
  rw [if_neg hindirect]
  by_cases hwrite : (opcode == WRITE_DATA) = true
  · rw [if_pos hwrite, beq_iff_eq.mp hwrite]
    exact writeData_costs body
  rw [if_neg hwrite]
  by_cases hevent : (opcode == EVENT_WRITE) = true
  · rw [if_pos hevent, beq_iff_eq.mp hevent]
    exact eventWrite_costs body
  rw [if_neg hevent]
  by_cases hstreamout : (opcode == STRMOUT_BUFFER_UPDATE) = true
  · rw [if_pos hstreamout, beq_iff_eq.mp hstreamout]
    exact streamoutUpdate_costs body
  rw [if_neg hstreamout]
  have hown : ∀ turns, ownCounts opcode body turns =
      if isIndirectDraw opcode then { draws := turns.countP readDrawnRecord } else 0 := by
    intro turns
    unfold ownCounts
    rw [if_neg hdma, if_neg hrelease, if_neg (by simp only [hwait, hwait64]; decide),
      if_neg (by simp only [hdirect, hindirect]; decide)]
  simp only [hown]
  cases hdraw : isIndirectDraw opcode with
  | true => exact runIndirectDraw_counted stream offset opcode body
  | false => exact runIndirectDraw_of_not stream offset body hdraw 0

end Orbistoun.Gpu.Cp
