import Orbistoun.Gpu.Cp.Basic

/-! # The memory a stream is listed to write

The list is made by a second decoder of the same packets. It has the bytes of every fill,
copy, release and data write; the counters an event dumps and the filled size a streamout
update stores are written and not listed.
-/

namespace Orbistoun.Gpu.Cp

open Lib

def Call.written : Call → Option (Nat × Nat)
  | write address bytes => some (address, bytes.length)
  | fill address _ count => some (address, count)
  | copy _ destination count => some (destination, count)
  | _ => none

/-- The call writes none but the spans. -/
def WritesIn (spans : List (Nat × Nat)) (c : Call) : Prop :=
  ∀ span, c.written = some span → span ∈ spans

/-- The call writes nothing itself. -/
def Silent (c : Call) : Prop := c.written = none

theorem Silent.writesIn {c : Call} (h : Silent c) (spans : List (Nat × Nat)) : WritesIn spans c := by
  intro span hspan
  rw [show c.written = none from h] at hspan
  cases hspan

namespace Work

variable {α β : Type} {P : Call → Prop}

/-- Whatever is answered, each call of the work has the property. -/
def Asks (P : Call → Prop) (w : Work α) : Prop := Dialogue.Asks P w

theorem asks_pure (a : α) : Asks P (pure a : Work α) := trivial

theorem asks_stop (s : Stop) : Asks P (stop s : Work α) := trivial

theorem asks_count (counts : Counts) : Asks P (count counts) := trivial

theorem asks_ask {c : Call} (h : P c) : Asks P (ask c) := ⟨h, fun _ => trivial⟩

theorem asks_bind {w : Work α} {f : α → Work β} (hw : Asks P w) (hf : ∀ a, Asks P (f a)) :
    Asks P (w >>= f) := by
  refine Dialogue.asks_bind hw ?_
  rintro ⟨_ | a, counts⟩
  · trivial
  · exact Dialogue.asks_bind (hf a) (fun _ => trivial)

theorem asks_ofOption (s : Stop) (o : Option α) : Asks P (ofOption s o) := by
  cases o <;> trivial

theorem asks_ofExcept (e : Except Stop α) : Asks P (ofExcept e) := by
  cases e <;> trivial

theorem asks_pure_bind {a : α} {f : α → Work β} (h : Asks P (f a)) : Asks P (pure a >>= f) :=
  Dialogue.asks_bind (d := f a) h (fun _ => trivial)

/-- Past a decoding only what it gave is gone on with. -/
theorem asks_ofExcept_bind {e : Except Stop α} {f : α → Work β}
    (h : ∀ a, e = .ok a → Asks P (f a)) : Asks P (ofExcept e >>= f) := by
  cases e with
  | error s => trivial
  | ok a => exact asks_pure_bind (h a rfl)

theorem asks_ofOption_bind {s : Stop} {o : Option α} {f : α → Work β}
    (h : ∀ a, o = some a → Asks P (f a)) : Asks P (ofOption s o >>= f) := by
  cases o with
  | none => trivial
  | some a => exact asks_pure_bind (h a rfl)

theorem asks_read (address length : Nat) : Asks Silent (read address length) :=
  asks_bind (asks_ask rfl) (fun _ => asks_ofOption _ _)

theorem asks_silent {c : Call} {spans : List (Nat × Nat)} (h : Silent c) :
    Asks (WritesIn spans) (ask c) := asks_ask (h.writesIn spans)

theorem asks_write {address : Nat} {bytes : List Byte} (h : P (.write address bytes)) :
    Asks P (write address bytes) := by
  refine asks_bind (asks_ask h) (fun done => ?_)
  cases (done : Bool) <;> trivial

theorem Asks.writesIn {w : Work α} (h : Asks Silent w) (spans : List (Nat × Nat)) :
    Asks (WritesIn spans) w :=
  Dialogue.Asks.imp (fun _ hc => hc.writesIn spans) h

end Work

open Work

/-! ## Packets that write nothing -/

theorem contextControl_silent (body : List Nat) : Asks Silent (contextControl body) := by
  unfold contextControl
  split
  · split
    · exact asks_stop _
    · exact asks_pure _
  · exact asks_stop _

theorem pollMemory_silent (function polled length reference mask : Nat) :
    Asks Silent (pollMemory function polled length reference mask) := by
  refine asks_bind (asks_read _ _) (fun bytes => asks_bind (asks_ofOption _ _) (fun holds => ?_))
  split
  · exact asks_count _
  · exact asks_stop _

theorem waitRegMem_silent (body : List Nat) : Asks Silent (waitRegMem body) := by
  unfold waitRegMem
  split
  · split
    · split
      · exact asks_count _
      · exact asks_stop _
    · exact pollMemory_silent _ _ _ _ _
  · exact asks_stop _

theorem waitRegMem64_silent (body : List Nat) : Asks Silent (waitRegMem64 body) := by
  unfold waitRegMem64
  split
  · split
    · exact asks_stop _
    · exact pollMemory_silent _ _ _ _ _
  · exact asks_stop _

variable (stream : List Byte) (offset : Nat)

theorem dispatchDirect_silent (body : List Nat) : Asks Silent (dispatchDirect stream offset body) := by
  unfold dispatchDirect
  split
  · refine asks_bind (asks_ask rfl) (fun accepted => ?_)
    split
    · exact asks_count _
    · refine asks_bind (asks_ask rfl) (fun polled => ?_)
      split <;> exact asks_stop _
  · exact asks_stop _

theorem dispatchIndirect_silent (body : List Nat) :
    Asks Silent (dispatchIndirect stream offset body) := by
  refine asks_bind (asks_ofOption _ _) (fun grid => asks_bind (asks_read _ _) (fun bytes => ?_))
  dsimp only
  split
  · exact asks_bind (asks_ask rfl) (fun _ => asks_pure _)
  · refine asks_bind (asks_ask rfl) (fun accepted => ?_)
    split
    · exact asks_count _
    · exact asks_stop _

theorem readRecords_silent (draw : IndirectDraw) (base maxSize left index : Nat) :
    Asks Silent (readRecords draw base maxSize left index) := by
  induction left generalizing index with
  | zero => exact asks_pure _
  | succ left ih =>
      refine asks_bind (asks_read _ _) (fun bytes => asks_bind (ih _) (fun found => ?_))
      dsimp only
      split <;> exact asks_pure _

theorem recordCount_silent (count : Count) : Asks Silent (recordCount count) := by
  cases count with
  | packet count => exact asks_pure _
  | memory most address => exact asks_bind (asks_read _ _) (fun _ => asks_pure _)

theorem runIndirectDraw_silent (opcode : Nat) (body : List Nat) :
    Asks Silent (runIndirectDraw stream offset opcode body) := by
  refine asks_bind (asks_ofExcept _) (fun draw => asks_bind (asks_ofOption _ _) (fun base =>
    asks_bind (recordCount_silent _) (fun count =>
      asks_bind (readRecords_silent _ _ _ _ _) (fun found => ?_))))
  dsimp only
  split
  · exact asks_pure _
  · refine asks_bind (asks_ofOption _ _) (fun segment => asks_bind (asks_ask rfl) (fun accepted => ?_))
    split
    · exact asks_count _
    · exact asks_stop _

/-! ## Packets whose writes are listed -/

theorem length_toLeBytes (n value : Nat) : (toLeBytes n value).length = n := by
  induction n generalizing value with
  | zero => rfl
  | succ n ih => rw [toLeBytes, List.length_cons, ih]

theorem length_flatMap_toLeBytes (words : List Nat) :
    (words.flatMap (toLeBytes 4)).length = words.length * 4 := by
  induction words with
  | nil => rfl
  | cons word words ih =>
      rw [List.flatMap_cons, List.length_append, length_toLeBytes, ih, List.length_cons]
      omega

theorem dmaPrefetch_silent {body : List Nat} {w : Work Unit} (h : dmaPrefetch body = some w) :
    Asks Silent w := by
  unfold dmaPrefetch at h
  split at h
  · split at h
    · cases h
    · split at h
      · cases h
        exact asks_stop _
      · cases h
        split
        · exact asks_pure _
        · exact asks_bind (asks_read _ _) (fun _ => asks_pure _)
  · cases h

theorem dmaMove_asks {dma : DmaData} {spans : List (Nat × Nat)}
    (h : 0 < dma.count → (dma.destination, dma.count) ∈ spans) :
    Asks (WritesIn spans) (dmaMove dma) := by
  unfold dmaMove
  split
  · exact asks_pure _
  · next hcount =>
    have hmem := h (Nat.pos_of_ne_zero (by simpa using hcount))
    have hspan : ∀ span, some (dma.destination, dma.count) = some span → span ∈ spans := by
      intro span hsome
      cases hsome
      exact hmem
    split
    · exact asks_ask hspan
    · split
      · refine asks_bind (asks_silent rfl) (fun word => ?_)
        split
        · exact asks_ask hspan
        · exact asks_pure _
      · split
        · exact asks_ask hspan
        · exact asks_stop _

theorem dmaMissing_silent (dma : DmaData) : Asks Silent (dmaMissing dma) := by
  unfold dmaMissing
  split
  · refine asks_bind (asks_ask rfl) (fun bytes => ?_)
    split <;> exact asks_stop _
  · exact asks_stop _

theorem dmaData_asks {body : List Nat} {spans : List (Nat × Nat)}
    (h : ∀ dma, decodeDmaData body = .ok dma → 0 < dma.count →
      (dma.destination, dma.count) ∈ spans) :
    Asks (WritesIn spans) (dmaData body) := by
  unfold dmaData
  split
  · next hprefetch => exact (dmaPrefetch_silent hprefetch).writesIn _
  · refine asks_ofExcept_bind (fun dma hdecode => asks_bind (dmaMove_asks (h dma hdecode)) (fun done => ?_))
    split
    · split <;> exact asks_count _
    · exact (dmaMissing_silent dma).writesIn _

theorem releasedBytes_bind {dataSel dataLow dataHigh : Nat} {P : Call → Prop}
    {f : List Byte → Work Unit} (hsilent : ∀ c, Silent c → P c) (hempty : Asks P (f []))
    (hfour : ∀ bytes : List Byte, dataSel = DATA_SEL_VALUE_32BIT → bytes.length = 4 →
      Asks P (f bytes))
    (height : ∀ bytes : List Byte, dataSel = DATA_SEL_VALUE_64BIT ∨ dataSel = DATA_SEL_TIMESTAMP →
      bytes.length = 8 → Asks P (f bytes)) :
    Asks P (releasedBytes dataSel dataLow dataHigh >>= f) := by
  unfold releasedBytes
  split
  · exact asks_pure_bind hempty
  · split
    · next h => exact asks_pure_bind (hfour _ (beq_iff_eq.mp h) (length_toLeBytes _ _))
    · split
      · next h => exact asks_pure_bind (height _ (.inl (beq_iff_eq.mp h)) (length_toLeBytes _ _))
      · split
        · next h =>
          refine ⟨hsilent _ rfl, fun now => ?_⟩
          have hbytes := height (toLeBytes 8 now) (.inr (beq_iff_eq.mp h)) (length_toLeBytes _ _)
          exact Dialogue.asks_bind (d := f _) hbytes (fun _ => trivial)
        · trivial

theorem asks_writeAny {spans : List (Nat × Nat)} {at' : Nat} {bytes : List Byte}
    (h : 0 < bytes.length → (at', bytes.length) ∈ spans) :
    Asks (WritesIn spans) (Work.writeAny at' bytes) := by
  unfold Work.writeAny
  split
  · exact asks_pure _
  · next hne =>
    refine asks_write (fun span hspan => ?_)
    cases hspan
    exact h (List.length_pos_of_ne_nil (by simpa using hne))

theorem raiseInterrupt_silent (selectors destination context : Nat) :
    Asks Silent (raiseInterrupt selectors destination context) := by
  unfold raiseInterrupt
  split
  · exact asks_bind (asks_ask rfl) (fun _ => asks_pure _)
  · exact asks_pure _

theorem releaseMem_asks {body : List Nat} {spans : List (Nat × Nat)}
    (h : ∀ span, spanOf RELEASE_MEM body = some span → 0 < span.2 → span ∈ spans) :
    Asks (WritesIn spans) (releaseMem body) := by
  unfold releaseMem
  split
  · next selectors addrLow addrHigh dataLow dataHigh rest =>
    have hrest : ∀ bytes : List Byte,
        (0 < bytes.length → (address addrLow addrHigh, bytes.length) ∈ spans) →
        Asks (WritesIn spans) (do
          Work.writeAny (address addrLow addrHigh) bytes
          raiseInterrupt selectors (address addrLow addrHigh) (rest.head?.getD 0)
          Work.count { releases := 1, bytesWritten := bytes.length }) := fun bytes hbytes =>
      asks_bind (asks_writeAny hbytes) (fun _ =>
        asks_bind ((raiseInterrupt_silent _ _ _).writesIn _) (fun _ => asks_count _))
    refine releasedBytes_bind (fun c hc => hc.writesIn _) (hrest [] (by simp)) ?_ ?_
    · intro bytes hsel hlength
      refine hrest bytes (fun _ => ?_)
      rw [hlength]
      exact h _ (by simp [spanOf, hsel, RELEASE_MEM, WRITE_DATA, DMA_DATA]) (by simp)
    · intro bytes hsel hlength
      refine hrest bytes (fun _ => ?_)
      rw [hlength]
      refine h _ ?_ (by simp)
      rcases hsel with hsel | hsel <;>
        simp [spanOf, hsel, RELEASE_MEM, WRITE_DATA, DMA_DATA, DATA_SEL_VALUE_32BIT,
          DATA_SEL_VALUE_64BIT, DATA_SEL_TIMESTAMP]
  · exact asks_stop _

theorem length_keptWords (control : Nat) (data : List Nat) :
    (keptWords control data).length =
      if control &&& WRITE_DATA_NO_INCREMENT != 0 then min data.length 1 else data.length := by
  unfold keptWords
  split
  · cases hlast : data.getLast? with
    | none =>
        rw [List.getLast?_eq_none_iff.mp hlast]
        rfl
    | some last =>
        have hpos := List.length_pos_of_mem (List.mem_of_getLast? hlast)
        simp only [Option.toList_some, List.length_singleton]
        omega
  · rfl

theorem writeData_asks {body : List Nat} {spans : List (Nat × Nat)}
    (h : ∀ span, spanOf WRITE_DATA body = some span → 0 < span.2 → span ∈ spans) :
    Asks (WritesIn spans) (writeData body) := by
  unfold writeData
  split
  · next control addrLow addrHigh data =>
    dsimp only
    split
    · exact asks_pure _
    · split
      · exact asks_stop _
      · next hsel =>
        refine asks_bind (asks_writeAny (fun hpos => ?_)) (fun _ => asks_count _)
        rw [length_flatMap_toLeBytes, length_keptWords] at hpos ⊢
        have hmemory : WRITE_DATA_DST_SEL_MEMORY.contains ((control >>> 8) &&& 0xf) = true := by
          simpa using hsel
        exact h _ (by simp only [spanOf, hmemory, beq_self_eq_true, if_true]) hpos
  · exact asks_stop _

/-! ## Packets whose writes are not listed -/

def dumpedSpans (body : List Nat) : List (Nat × Nat) :=
  match body with
  | initiator :: addrLow :: addrHigh :: _ =>
      let destination := address (qwordAligned addrLow) (addrHigh &&& 0xFFFF)
      match statsEventStream initiator with
      | some _ => [(destination, 8), (destination + 8, 8)]
      | none =>
          if initiator &&& 0x3F == ZPASS_DONE then
            (List.range ZPASS_BACKENDS).map (fun backend => (destination + backend * 16, 8))
          else []
  | _ => []

/-- The bytes of memory a streamout update stores a filled size to. -/
def storedSpans (body : List Nat) : List (Nat × Nat) :=
  (((decodeUpdate body).bind Update.storeTo).map (fun at' => (at', 4))).toList

/-- The bytes of memory a packet writes and is not listed to write. -/
def unlistedSpans (opcode : Nat) (body : List Nat) : List (Nat × Nat) :=
  if opcode == EVENT_WRITE then dumpedSpans body
  else if opcode == STRMOUT_BUFFER_UPDATE then storedSpans body
  else []

theorem writeCounters_asks {spans : List (Nat × Nat)} {slots : List (Nat × Nat)}
    (h : ∀ slot ∈ slots, (slot.1, 8) ∈ spans) : Asks (WritesIn spans) (writeCounters slots) := by
  induction slots with
  | nil => exact asks_pure _
  | cons slot slots ih =>
      have hslot : WritesIn spans (.write slot.1 (toLeBytes 8 (slot.2 ||| ZPASS_VALID))) := by
        intro span hspan
        rw [Call.written, length_toLeBytes] at hspan
        cases hspan
        exact h slot List.mem_cons_self
      exact asks_bind (asks_write hslot) (fun _ => asks_bind (asks_count _) (fun _ =>
        ih (fun slot hmem => h slot (List.mem_cons_of_mem _ hmem))))

theorem sampleStats_asks {spans : List (Nat × Nat)} (stream destination : Nat)
    (h : (destination, 8) ∈ spans) (h' : (destination + 8, 8) ∈ spans) :
    Asks (WritesIn spans) (sampleStats stream destination) := by
  refine asks_bind (asks_silent rfl) (fun stats => asks_bind (asks_ofOption _ _) (fun stats => ?_))
  refine writeCounters_asks (fun slot hmem => ?_)
  rcases List.mem_cons.mp hmem with rfl | hmem
  · exact h
  · rw [List.mem_singleton.mp hmem]
    exact h'

theorem zpassDone_asks {spans : List (Nat × Nat)} (destination : Nat)
    (h : ∀ backend ∈ List.range ZPASS_BACKENDS, (destination + backend * 16, 8) ∈ spans) :
    Asks (WritesIn spans) (zpassDone destination) := by
  refine asks_bind (asks_silent rfl) (fun count => asks_bind (asks_ofOption _ _) (fun count => ?_))
  refine writeCounters_asks (fun slot hmem => ?_)
  obtain ⟨backend, hbackend, rfl⟩ := List.mem_map.mp hmem
  exact h backend hbackend

theorem eventWrite_asks (body : List Nat) :
    Asks (WritesIn (dumpedSpans body)) (eventWrite body) := by
  match body with
  | initiator :: addrLow :: addrHigh :: rest =>
      simp only [eventWrite, dumpedSpans]
      cases hstats : statsEventStream initiator with
      | some stream => exact sampleStats_asks _ _ (by simp) (by simp)
      | none =>
          cases hzpass : initiator &&& 0x3F == ZPASS_DONE with
          | true =>
              simp only [bne, hzpass, Bool.not_true, Bool.false_eq_true, if_false, if_true]
              exact zpassDone_asks _ (fun backend hbackend =>
                List.mem_map.mpr ⟨backend, hbackend, rfl⟩)
          | false =>
              simp only [bne, hzpass, Bool.not_false, if_true]
              exact asks_stop _
  | [] | [_] | [_, _] => exact asks_stop _

theorem updatedOffset_silent (source : OffsetSource) : Asks Silent (updatedOffset source) := by
  cases source with
  | packet bytes => exact asks_pure _
  | memory address => exact asks_bind (asks_read _ _) (fun _ => asks_pure _)
  | keep => exact asks_pure _

theorem storeFilled_asks {spans : List (Nat × Nat)} {storeTo : Option Nat} (held : Option Nat)
    (h : ∀ at', storeTo = some at' → (at', 4) ∈ spans) :
    Asks (WritesIn spans) (storeFilled storeTo held) := by
  cases storeTo with
  | none => exact asks_pure _
  | some at' =>
      refine asks_bind (asks_ofOption _ _) (fun filled => asks_bind (asks_write ?_) (fun _ => asks_count _))
      intro span hspan
      rw [Call.written, length_toLeBytes] at hspan
      cases hspan
      exact h at' rfl

theorem streamoutUpdate_asks (body : List Nat) :
    Asks (WritesIn (storedSpans body)) (streamoutUpdate body) := by
  refine asks_ofOption_bind (fun update hupdate => ?_)
  refine asks_bind ((updatedOffset_silent _).writesIn _) (fun offset => ?_)
  refine asks_bind (asks_silent rfl) (fun held => asks_bind (asks_ofOption _ _) (fun held => ?_))
  refine storeFilled_asks held (fun at' hstore => ?_)
  simp [storedSpans, hupdate, hstore]

theorem carryOut_asks (opcode : Nat) (body : List Nat) :
    Asks (WritesIn (((spanOf opcode body).filter (fun span => 0 < span.2)).toList ++
      unlistedSpans opcode body)) (carryOut stream offset opcode body) := by
  have hlisted : ∀ span, spanOf opcode body = some span → 0 < span.2 →
      span ∈ ((spanOf opcode body).filter (fun span => 0 < span.2)).toList ++
        unlistedSpans opcode body := by
    intro span hspan hpos
    refine List.mem_append_left _ ?_
    simp [hspan, hpos]
  have hunlisted : ∀ c, WritesIn (unlistedSpans opcode body) c →
      WritesIn (((spanOf opcode body).filter (fun span => 0 < span.2)).toList ++
        unlistedSpans opcode body) c :=
    fun c hc span hspan => List.mem_append_right _ (hc span hspan)
  unfold carryOut
  by_cases h : (opcode == DMA_DATA) = true
  · rw [if_pos h]
    obtain rfl := beq_iff_eq.mp h
    refine dmaData_asks (fun dma hdecode hpos => hlisted _ ?_ hpos)
    simp [spanOf, hdecode, DMA_DATA, WRITE_DATA]
  rw [if_neg h]
  by_cases h : (opcode == RELEASE_MEM) = true
  · rw [if_pos h]
    obtain rfl := beq_iff_eq.mp h
    exact releaseMem_asks hlisted
  rw [if_neg h]
  by_cases h : (opcode == WAIT_REG_MEM) = true
  · rw [if_pos h]
    exact (waitRegMem_silent body).writesIn _
  rw [if_neg h]
  by_cases h : (opcode == WAIT_REG_MEM64) = true
  · rw [if_pos h]
    exact (waitRegMem64_silent body).writesIn _
  rw [if_neg h]
  by_cases h : (opcode == CONTEXT_CONTROL) = true
  · rw [if_pos h]
    exact (contextControl_silent body).writesIn _
  rw [if_neg h]
  by_cases h : (opcode == DISPATCH_DIRECT) = true
  · rw [if_pos h]
    exact (dispatchDirect_silent stream offset body).writesIn _
  rw [if_neg h]
  by_cases h : (opcode == DISPATCH_INDIRECT) = true
  · rw [if_pos h]
    exact (dispatchIndirect_silent stream offset body).writesIn _
  rw [if_neg h]
  by_cases h : (opcode == WRITE_DATA) = true
  · rw [if_pos h]
    obtain rfl := beq_iff_eq.mp h
    exact writeData_asks hlisted
  rw [if_neg h]
  by_cases h : (opcode == EVENT_WRITE) = true
  · rw [if_pos h]
    obtain rfl := beq_iff_eq.mp h
    exact Dialogue.Asks.imp hunlisted (eventWrite_asks body)
  rw [if_neg h]
  by_cases h : (opcode == STRMOUT_BUFFER_UPDATE) = true
  · rw [if_pos h]
    obtain rfl := beq_iff_eq.mp h
    exact Dialogue.Asks.imp hunlisted (streamoutUpdate_asks body)
  rw [if_neg h]
  exact (runIndirectDraw_silent stream offset opcode body).writesIn _

end Orbistoun.Gpu.Cp
