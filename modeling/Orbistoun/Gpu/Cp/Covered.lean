import Orbistoun.Gpu.Cp.Spans

/-! # When the list covers what a stream writes

Every byte the walk of a stream changes is listed, unless a packet the walk can come to
dumps counters, or stores a filled size, where no listed span lies.
-/

namespace Orbistoun.Gpu.Cp

open Lib

/-- Memory answers that it did the write. -/
def Call.accepted : (c : Call) → c.Answer → Bool
  | write .., done => done
  | fill .., done => done
  | copy .., done => done
  | _, _ => false

/-- The byte lies in one of the spans. -/
def Covers (spans : List (Nat × Nat)) (byte : Nat) : Prop :=
  ∃ span ∈ spans, span.1 ≤ byte ∧ byte < span.1 + span.2

/-- The turn is a write of the byte that memory did. -/
def Changes (turn : Dialogue.Turn Call.Answer) (byte : Nat) : Prop :=
  turn.1.accepted turn.2 = true ∧ Covers turn.1.written.toList byte

/-- Each byte that carrying out the stream changes by itself is listed. -/
def SpansCover (stream : List Byte) : Prop :=
  ∀ memory, ∀ entry ∈ (execute stream memory).2, ∀ turn ∈ entry.turns, ∀ byte,
    Changes turn byte → Covers (writtenSpans stream) byte

def Packet.unlisted (stream : List Byte) (p : Packet) : List (Nat × Nat) :=
  match p.kind with
  | .command opcode => unlistedSpans opcode (wordsOf (bodyBytes stream p))
  | _ => []

/-- A packet that is neither passed over nor a draw, with its opcode. -/
structure Packet.Carried (stream : List Byte) (p : Packet) (opcode : Nat) : Prop where
  kind : p.kind = .command opcode
  effect : isMemoryInert opcode ((bodyBytes stream p).length / 4) = false
  notDraw : Cp.isDraw opcode = false

def Packet.Refused (stream : List Byte) (p : Packet) : Prop :=
  ∃ opcode, p.Carried stream opcode ∧ ∀ memory : CpMemory,
    ∃ stop, ((p.work stream opcode).run memory.answer memory.state).1.1 = .error stop

/-- A packet that some memory lets the walk come to writes where nothing is listed. -/
def WritesUnlisted (stream : List Byte) : Prop :=
  (walk stream).isTrustworthy = true ∧ ∃ before p after,
    (walk stream).packets = before ++ p :: after ∧ (∀ q ∈ before, ¬ q.Refused stream) ∧
    ∃ span ∈ p.unlisted stream, ∃ byte, span.1 ≤ byte ∧ byte < span.1 + span.2 ∧
      ¬ Covers (writtenSpans stream) byte

variable {stream : List Byte} {p : Packet}

/-! ## One packet -/

theorem stepPacket_carried {opcode : Nat} (h : p.Carried stream opcode) (segments : List DrawSegment)
    (result : CpExecution) :
    stepPacket stream p segments result = (p.work stream opcode).bind (fun done =>
      .done (p.settle stream opcode segments result done)) := by
  simp only [stepPacket, h.kind, h.effect, h.notDraw, Bool.false_eq_true, if_false]

theorem stepPacket_asks_of_not_carried (h : ∀ opcode, ¬ p.Carried stream opcode)
    (segments : List DrawSegment) (result : CpExecution) :
    (stepPacket stream p segments result).Asks Silent := by
  unfold stepPacket
  split
  · trivial
  · trivial
  · trivial
  · next opcode hkind =>
    dsimp only
    split
    · trivial
    · next heffect =>
      split
      · split
        · refine ⟨rfl, fun accepted => ?_⟩
          cases (accepted : Bool) <;> trivial
        · trivial
      · next hdraw => exact absurd ⟨hkind, by simpa using heffect, by simpa using hdraw⟩ (h opcode)

theorem stepPacket_asks (segments : List DrawSegment) (result : CpExecution) :
    (stepPacket stream p segments result).Asks
      (WritesIn ((writtenSpan stream p).toList ++ p.unlisted stream)) := by
  by_cases hcarried : ∃ opcode, p.Carried stream opcode
  · obtain ⟨opcode, hcarried⟩ := hcarried
    rw [stepPacket_carried hcarried]
    refine Dialogue.asks_bind ?_ (fun step => ?_)
    · refine Dialogue.Asks.imp ?_ (carryOut_asks stream p.offset opcode (wordsOf (bodyBytes stream p)))
      intro c hc span hspan
      have hmem := hc span hspan
      rcases List.mem_append.mp hmem with hmem | hmem
      · refine List.mem_append_left _ ?_
        unfold writtenSpan
        unfold bodyBytes at hmem
        rw [hcarried.kind]
        cases hrange : getRange stream p.bodyOffset (p.bodyOffset + p.bodyLength) with
        | none =>
            -- A body that is not there decodes to nothing.
            rw [hrange] at hmem
            simp [spanOf, wordsOf, decodeDmaData] at hmem
        | some bytes =>
            rw [hrange] at hmem
            exact hmem
      · refine List.mem_append_right _ ?_
        unfold Packet.unlisted
        rw [hcarried.kind]
        exact hmem
    · trivial
  · simp only [not_exists] at hcarried
    exact Dialogue.Asks.imp (fun c hc => hc.writesIn _)
      (stepPacket_asks_of_not_carried hcarried segments result)

theorem stepPacket_of_refused (h : p.Refused stream) (memory : CpMemory)
    (segments : List DrawSegment) (result : CpExecution) :
    ∃ result', ((stepPacket stream p segments result).run memory.answer memory.state).1 =
      .stopped result' := by
  obtain ⟨opcode, hcarried, hstop⟩ := h
  obtain ⟨stop, hstop⟩ := hstop memory
  rw [stepPacket_carried hcarried, Dialogue.run_bind]
  generalize (p.work stream opcode).run memory.answer memory.state = ran at hstop ⊢
  obtain ⟨⟨step, counts⟩, state, turns⟩ := ran
  cases hstop
  exact ⟨_, rfl⟩

/-- Unless every memory stops at a packet, some turns take the walk past it. -/
theorem stepPacket_of_not_refused (h : ¬ p.Refused stream) (hkind : p.kind ≠ .reserved)
    (segments : List DrawSegment) (result : CpExecution) :
    ∃ turns step, (stepPacket stream p segments result).Goes turns step ∧
      ∀ result', step ≠ .stopped result' := by
  by_cases hcarried : ∃ opcode, p.Carried stream opcode
  · obtain ⟨opcode, hcarried⟩ := hcarried
    simp only [Packet.Refused, not_exists, not_and, not_forall] at h
    obtain ⟨memory, hgoes⟩ := h opcode hcarried
    have hrun := Dialogue.goes_run memory.answer (p.work stream opcode) memory.state
    generalize (p.work stream opcode).run memory.answer memory.state = ran at hrun hgoes
    obtain ⟨⟨step, counts⟩, state, turns⟩ := ran
    cases step with
    | error stop => exact absurd rfl (hgoes stop)
    | ok a =>
        rw [stepPacket_carried hcarried]
        exact ⟨turns, _, Dialogue.goes_bind.mpr ⟨_, turns, [], (List.append_nil _).symm, hrun,
          ⟨rfl, rfl⟩⟩, fun result' hstep => Step.noConfusion hstep⟩
  · simp only [not_exists] at hcarried
    unfold stepPacket
    split
    · exact ⟨[], _, ⟨rfl, rfl⟩, fun result' hstep => Step.noConfusion hstep⟩
    · exact ⟨[], _, ⟨rfl, rfl⟩, fun result' hstep => Step.noConfusion hstep⟩
    · next hreserved => exact absurd hreserved hkind
    · next opcode hcommand =>
      dsimp only
      split
      · exact ⟨[], _, ⟨rfl, rfl⟩, fun result' hstep => Step.noConfusion hstep⟩
      · next heffect =>
        split
        · split
          · exact ⟨_, _, ⟨true, [], rfl, rfl, rfl⟩, fun result' hstep => Step.noConfusion hstep⟩
          · exact ⟨[], _, ⟨rfl, rfl⟩, fun result' hstep => Step.noConfusion hstep⟩
        · next hdraw =>
          exact absurd ⟨hcommand, by simpa using heffect, by simpa using hdraw⟩ (hcarried opcode)

/-! ## The walk -/

/-- A packet the walk came to stands behind none that every memory stops at. -/
theorem executeLoop_entry {memory : CpMemory} {packets : List Packet} {segments : List DrawSegment}
    {result : CpExecution} {s : memory.State} {entry : Entry}
    (h : entry ∈ (executeLoop memory.answer stream packets segments result s).2) :
    ∃ before after, packets = before ++ entry.packet :: after ∧ (∀ q ∈ before, ¬ q.Refused stream) ∧
      ∃ segments result step, (stepPacket stream entry.packet segments result).Goes entry.turns step := by
  induction packets generalizing segments result s with
  | nil => cases h
  | cons p packets ih =>
      have hgoes := Dialogue.goes_run memory.answer (stepPacket stream p segments result) s
      have hpass : (∀ result', ((stepPacket stream p segments result).run memory.answer s).1 ≠
          .stopped result') → ¬ p.Refused stream := by
        intro hstep hrefused
        obtain ⟨result', hstopped⟩ :=
          stepPacket_of_refused hrefused ⟨memory.State, memory.answer, s⟩ segments result
        exact hstep result' hstopped
      have hlater : ∀ segments' result' s',
          (∀ result', ((stepPacket stream p segments result).run memory.answer s).1 ≠
            .stopped result') →
          entry ∈ (executeLoop memory.answer stream packets segments' result' s').2 →
          ∃ before after, p :: packets = before ++ entry.packet :: after ∧
            (∀ q ∈ before, ¬ q.Refused stream) ∧ ∃ segments result step,
              (stepPacket stream entry.packet segments result).Goes entry.turns step := by
        intro segments' result' s' hstep hmem
        obtain ⟨before, after, rfl, hbefore, hstep'⟩ := ih hmem
        refine ⟨p :: before, after, rfl, fun q hq => ?_, hstep'⟩
        rcases List.mem_cons.mp hq with rfl | hq
        · exact hpass hstep
        · exact hbefore q hq
      rw [executeLoop] at h
      split at h
      · next hrun => exact hlater _ _ _ (by rw [hrun]; exact fun _ h => Step.noConfusion h) h
      · next turns hrun =>
        rcases List.mem_cons.mp h with rfl | h
        · rw [hrun] at hgoes
          exact ⟨[], packets, rfl, by simp, segments, result, _, hgoes⟩
        · exact hlater _ _ _ (by rw [hrun]; exact fun _ h => Step.noConfusion h) h
      · next turns hrun =>
        rw [List.mem_singleton] at h
        subst h
        rw [hrun] at hgoes
        exact ⟨[], packets, rfl, by simp, segments, result, _, hgoes⟩

/-- Turns that take the walk past packets no memory need stop at. -/
theorem executeLoop_passes {before : List Packet}
    (h : ∀ q ∈ before, ¬ q.Refused stream ∧ q.kind ≠ .reserved) (segments : List DrawSegment)
    (result : CpExecution) :
    ∃ (tape : Turns) (segments' : List DrawSegment) (result' : CpExecution), ∀ packets rest,
      ∀ entry ∈ (executeLoop Dialogue.fromTape stream packets segments' result' rest).2,
        entry ∈ (executeLoop Dialogue.fromTape stream (before ++ packets) segments result
          (tape ++ rest)).2 := by
  induction before generalizing segments result with
  | nil => exact ⟨[], segments, result, fun packets rest entry hentry => hentry⟩
  | cons q before ih =>
      obtain ⟨hq, hkind⟩ := h q List.mem_cons_self
      obtain ⟨turns, step, hgoes, hstep⟩ := stepPacket_of_not_refused hq hkind segments result
      have hbefore : ∀ q ∈ before, ¬ q.Refused stream ∧ q.kind ≠ .reserved :=
        fun q hq => h q (List.mem_cons_of_mem _ hq)
      cases step with
      | passedOver =>
          obtain ⟨tape, segments', result', hih⟩ := ih hbefore segments result
          refine ⟨turns ++ tape, segments', result', fun packets rest entry hentry => ?_⟩
          rw [List.cons_append, executeLoop, List.append_assoc,
            Dialogue.run_fromTape hgoes (tape ++ rest)]
          exact hih packets rest entry hentry
      | carriedOut segments₁ result₁ =>
          obtain ⟨tape, segments', result', hih⟩ := ih hbefore segments₁ result₁
          refine ⟨turns ++ tape, segments', result', fun packets rest entry hentry => ?_⟩
          rw [List.cons_append, executeLoop, List.append_assoc,
            Dialogue.run_fromTape hgoes (tape ++ rest)]
          exact List.mem_cons_of_mem _ (hih packets rest entry hentry)
      | stopped result₁ => exact absurd rfl (hstep result₁)

theorem execute_eq (ht : (walk stream).isTrustworthy = true) :
    ∃ segments, ∀ memory : CpMemory, execute stream memory =
      executeLoop memory.answer stream (walk stream).packets segments {} memory.state := by
  have hall : (walk stream).packets.filter (fun p => decide (0 ≤ p.offset)) = (walk stream).packets := by
    simp
  refine ⟨(drawSegments stream (walk stream).packets).dropWhile (fun segment => segment.first < 0),
    fun memory => ?_⟩
  unfold execute executeFrom
  rw [ht, hall]
  rfl

/-! ## Turns that write what is not listed -/

namespace Work

variable {α β : Type}

theorem goes_ask (c : Call) (a : c.Answer) : Dialogue.Goes (ask c) [⟨c, a⟩] (.ok a, 0) :=
  ⟨a, [], rfl, rfl, rfl⟩

theorem goes_bind {w : Work α} {f : α → Work β} {first rest : Turns} {a : α} {c more : Counts}
    {x : Except Stop β} (hw : Dialogue.Goes w first (.ok a, c))
    (hf : Dialogue.Goes (f a) rest (x, more)) :
    Dialogue.Goes (w >>= f : Work β) (first ++ rest) (x, c + more) := by
  refine Dialogue.goes_bind.mpr ⟨_, first, rest, rfl, hw, ?_⟩
  exact Dialogue.goes_bind.mpr ⟨_, rest, [], (List.append_nil _).symm, hf, rfl, rfl⟩

theorem goes_pure (a : α) : Dialogue.Goes (pure a : Work α) [] (.ok a, 0) := ⟨rfl, rfl⟩

theorem goes_write (at' : Nat) (bytes : List Byte) :
    Dialogue.Goes (write at' bytes) [⟨.write at' bytes, true⟩] (.ok (), 0) :=
  ⟨true, [], rfl, rfl, rfl⟩

end Work

open Work

theorem writeCounters_goes (slots : List (Nat × Nat)) :
    ∃ counts, Dialogue.Goes (writeCounters slots)
      (slots.map (fun slot => ⟨.write slot.1 (toLeBytes 8 (slot.2 ||| ZPASS_VALID)), true⟩))
      (.ok (), counts) := by
  induction slots with
  | nil => exact ⟨0, goes_pure ()⟩
  | cons slot slots ih =>
      obtain ⟨counts, hih⟩ := ih
      exact ⟨_, goes_bind (goes_write _ _) (goes_bind (w := Work.count _) ⟨rfl, rfl⟩ hih)⟩

theorem exists_written {slots : List (Nat × Nat)} (slot : Nat × Nat) (h : slot ∈ slots) (turns : Turns) :
    ∃ turn ∈ turns ++ slots.map (fun slot =>
        (⟨.write slot.1 (toLeBytes 8 (slot.2 ||| ZPASS_VALID)), true⟩ : Dialogue.Turn Call.Answer)),
      turn.1.written = some (slot.1, 8) ∧ turn.1.accepted turn.2 = true := by
  refine ⟨_, List.mem_append_right _ (List.mem_map_of_mem h), ?_, rfl⟩
  rw [Call.written, length_toLeBytes]

theorem sampleStats_goes (stream destination : Nat) {span : Nat × Nat}
    (h : span ∈ [(destination, 8), (destination + 8, 8)]) :
    ∃ turns counts, Dialogue.Goes (sampleStats stream destination) turns (.ok (), counts) ∧
      ∃ turn ∈ turns, turn.1.written = some span ∧ turn.1.accepted turn.2 = true := by
  obtain ⟨counts, hgoes⟩ := writeCounters_goes [(destination, 0), (destination + 8, 0)]
  refine ⟨_, _, goes_bind (goes_ask (.streamoutStats stream) (some (0, 0)))
    (goes_bind (w := Work.ofOption _ (some (0, 0))) (goes_pure _) hgoes), ?_⟩
  rcases List.mem_cons.mp h with rfl | h
  · exact exists_written (destination, 0) (by simp) [_]
  · rw [List.mem_singleton.mp h]
    exact exists_written (destination + 8, 0) (by simp) [_]

theorem zpassDone_goes (destination : Nat) {span : Nat × Nat}
    (h : span ∈ (List.range ZPASS_BACKENDS).map (fun backend => (destination + backend * 16, 8))) :
    ∃ turns counts, Dialogue.Goes (zpassDone destination) turns (.ok (), counts) ∧
      ∃ turn ∈ turns, turn.1.written = some span ∧ turn.1.accepted turn.2 = true := by
  obtain ⟨counts, hgoes⟩ := writeCounters_goes (zpassSlots destination 0)
  obtain ⟨backend, hbackend, rfl⟩ := List.mem_map.mp h
  have hslot : (destination + backend * 16, if backend == 0 then 0 else 0) ∈
      zpassSlots destination 0 := List.mem_map.mpr ⟨backend, hbackend, rfl⟩
  exact ⟨_, _, goes_bind (goes_ask .samplesPassed (some 0))
    (goes_bind (w := Work.ofOption _ (some 0)) (goes_pure _) hgoes), exists_written _ hslot [_]⟩

theorem eventWrite_goes {body : List Nat} {span : Nat × Nat} (h : span ∈ dumpedSpans body) :
    ∃ turns counts, Dialogue.Goes (eventWrite body) turns (.ok (), counts) ∧
      ∃ turn ∈ turns, turn.1.written = some span ∧ turn.1.accepted turn.2 = true := by
  match body with
  | initiator :: addrLow :: addrHigh :: rest =>
      simp only [dumpedSpans] at h
      simp only [eventWrite]
      cases hstats : statsEventStream initiator with
      | some stream =>
          rw [hstats] at h
          exact sampleStats_goes _ _ h
      | none =>
          rw [hstats] at h
          cases hzpass : initiator &&& 0x3F == ZPASS_DONE with
          | true =>
              simp only [hzpass, if_true] at h
              simp only [bne, hzpass, Bool.not_true, Bool.false_eq_true, if_false]
              exact zpassDone_goes _ h
          | false =>
              simp only [hzpass, Bool.false_eq_true, if_false] at h
              cases h
  | [] | [_] | [_, _] => cases h

theorem updatedOffset_goes (source : OffsetSource) :
    ∃ turns offset counts, Dialogue.Goes (updatedOffset source) turns (.ok offset, counts) := by
  cases source with
  | packet bytes => exact ⟨_, _, _, goes_pure _⟩
  | memory address =>
      exact ⟨_, _, _, goes_bind (w := Work.read address 4)
        (goes_bind (goes_ask (.read address 4) (some ⟨[0, 0, 0, 0], rfl⟩)) (goes_pure _)) (goes_pure _)⟩
  | keep => exact ⟨_, _, _, goes_pure _⟩

theorem streamoutUpdate_goes {body : List Nat} {span : Nat × Nat} (h : span ∈ storedSpans body) :
    ∃ turns counts, Dialogue.Goes (streamoutUpdate body) turns (.ok (), counts) ∧
      ∃ turn ∈ turns, turn.1.written = some span ∧ turn.1.accepted turn.2 = true := by
  simp only [storedSpans, Option.mem_toList, Option.map_eq_some_iff, Option.bind_eq_some_iff] at h
  obtain ⟨at', ⟨update, hupdate, hstore⟩, rfl⟩ := h
  obtain ⟨turns, offset, counts, hoffset⟩ := updatedOffset_goes update.source
  have hheld := goes_ask (.withStreamout update.buffer offset) (some (some 0))
  have hstored : Dialogue.Goes (storeFilled (some at') (some 0))
      ([] ++ ([⟨.write at' (toLeBytes 4 0), true⟩] ++ [])) (.ok (), 0 + (0 + { bytesWritten := 4 })) :=
    goes_bind (w := Work.ofOption _ (some 0)) (goes_pure _)
      (goes_bind (goes_write _ _) ⟨rfl, rfl⟩)
  rw [← hstore] at hstored
  unfold streamoutUpdate
  rw [hupdate]
  refine ⟨_, _, goes_bind (w := Work.ofOption _ (some update)) (goes_pure _)
    (goes_bind hoffset (goes_bind hheld
      (goes_bind (w := Work.ofOption _ (some (some 0))) (goes_pure _) hstored))),
    ⟨.write at' (toLeBytes 4 0), true⟩, by simp, ?_, rfl⟩
  rw [Call.written, length_toLeBytes]

theorem length_wordsOf (bytes : List Byte) : (wordsOf bytes).length = bytes.length / 4 := by
  induction bytes using wordsOf.induct with
  | case1 a b c d rest ih =>
      rw [wordsOf, List.length_cons, ih]
      simp only [List.length_cons]
      omega
  | case2 bytes h =>
      match bytes, h with
      | [], _ | [_], _ | [_, _], _ | [_, _, _], _ => simp [wordsOf]
      | a :: b :: c :: d :: rest, h => exact absurd rfl (h a b c d rest)

/-- What is written and not listed is written by an event with an address or a streamout
update. -/
theorem unlistedSpans_effect {opcode : Nat} {bytes : List Byte} {span : Nat × Nat}
    (h : span ∈ unlistedSpans opcode (wordsOf bytes)) :
    isMemoryInert opcode (bytes.length / 4) = false ∧ Cp.isDraw opcode = false := by
  unfold unlistedSpans at h
  split at h
  · next hop =>
    rw [beq_iff_eq.mp hop, ← length_wordsOf]
    match hwords : wordsOf bytes, h with
    | _ :: _ :: _ :: rest, _ =>
        simp [isMemoryInert, isDraw, EVENT_WRITE, NOP, SET_BASE, INDEX_BUFFER_SIZE, INDEX_BASE,
          NUM_INSTANCES, ACQUIRE_MEM, SET_CONTEXT_REG, SET_SH_REG, SET_UCONFIG_REG,
          SET_UCONFIG_REG_INDEX, SET_CONTEXT_REG_INDIRECT, SET_SH_REG_INDIRECT,
          SET_UCONFIG_REG_INDIRECT, STALL_COMMAND_BUFFER_PARSER, CLEAR_STATE, DRAW_INDEX_2,
          DRAW_INDEX_AUTO, DRAW_INDEX_OFFSET_2]
    | [], h | [_], h | [_, _], h => cases h
  · split at h
    · next hop =>
      rw [beq_iff_eq.mp hop]
      exact ⟨rfl, rfl⟩
    · cases h

theorem stepPacket_writes {span : Nat × Nat} (h : span ∈ p.unlisted stream)
    (segments : List DrawSegment) (result : CpExecution) :
    ∃ turns segments' result', (stepPacket stream p segments result).Goes turns
        (.carriedOut segments' result') ∧
      ∃ turn ∈ turns, turn.1.written = some span ∧ turn.1.accepted turn.2 = true := by
  unfold Packet.unlisted at h
  split at h
  · next opcode hkind =>
    obtain ⟨turns, counts, hgoes, hturn⟩ : ∃ turns counts,
        (p.work stream opcode).Goes turns (.ok (), counts) ∧
        ∃ turn ∈ turns, turn.1.written = some span ∧ turn.1.accepted turn.2 = true := by
      unfold unlistedSpans at h
      split at h
      · next hop =>
        rw [beq_iff_eq.mp hop]
        exact eventWrite_goes h
      · split at h
        · next hop =>
          rw [beq_iff_eq.mp hop]
          exact streamoutUpdate_goes h
        · cases h
    have hcarried : p.Carried stream opcode := ⟨hkind, (unlistedSpans_effect h).1, (unlistedSpans_effect h).2⟩
    rw [stepPacket_carried hcarried]
    exact ⟨turns, _, _, Dialogue.goes_bind.mpr ⟨_, turns, [], (List.append_nil _).symm, hgoes,
      rfl, rfl⟩, hturn⟩
  · cases h

/-! ## The list and the writes -/

theorem mem_writtenSpans (ht : (walk stream).isTrustworthy = true) (hp : p ∈ (walk stream).packets)
    {span : Nat × Nat} (h : span ∈ (writtenSpan stream p).toList) : span ∈ writtenSpans stream := by
  unfold writtenSpans
  rw [ht]
  simp only [Bool.not_true, Bool.false_eq_true, if_false]
  exact List.mem_filterMap.mpr ⟨p, hp, by simpa using h⟩

/-- Where a packet can come to write what is not listed, some memory has it do so. -/
theorem WritesUnlisted.not_cover (h : WritesUnlisted stream) : ¬ SpansCover stream := by
  obtain ⟨ht, before, p, after, hpackets, hbefore, span, hspan, byte, hlow, hhigh, hnot⟩ := h
  intro hcover
  obtain ⟨segments, hexecute⟩ := execute_eq ht
  have hreach : ∀ q ∈ before, ¬ q.Refused stream ∧ q.kind ≠ .reserved := fun q hq =>
    ⟨hbefore q hq, not_reserved ht (by rw [hpackets]; exact List.mem_append_left _ hq)⟩
  obtain ⟨tape, segments', result', hpasses⟩ := executeLoop_passes hreach segments {}
  obtain ⟨turns, _, _, hgoes, turn, hturn, hwritten, haccepted⟩ :=
    stepPacket_writes hspan segments' result'
  have hentry : ⟨p, turns, true⟩ ∈
      (executeLoop Dialogue.fromTape stream (p :: after) segments' result' (turns ++ [])).2 := by
    rw [executeLoop, Dialogue.run_fromTape hgoes []]
    exact List.mem_cons_self
  have hlog := hpasses _ _ _ hentry
  rw [← hpackets, ← hexecute ⟨Turns, Dialogue.fromTape, tape ++ (turns ++ [])⟩] at hlog
  refine hnot (hcover _ _ hlog turn hturn byte ⟨haccepted, span, ?_, hlow, hhigh⟩)
  rw [hwritten]
  exact List.mem_singleton.mpr rfl

/-- The listed spans cover what carrying the stream out writes, in every memory, exactly
where no packet the walk can come to writes outside them what is not listed. -/
theorem spans_cover_iff (stream : List Byte) : SpansCover stream ↔ ¬ WritesUnlisted stream := by
  constructor
  · intro hcover hunlisted
    exact hunlisted.not_cover hcover
  · intro hlisted memory entry hentry turn hturn byte hchanges
    obtain ⟨-, span, hspan, hlow, hhigh⟩ := hchanges
    by_cases ht : (walk stream).isTrustworthy = true
    · obtain ⟨segments, hexecute⟩ := execute_eq ht
      rw [hexecute] at hentry
      obtain ⟨before, after, hpackets, hbefore, _, _, step, hgoes⟩ := executeLoop_entry hentry
      have hmem := (stepPacket_asks _ _).of_goes hgoes turn hturn span (by simpa using hspan)
      rcases List.mem_append.mp hmem with hmem | hmem
      · exact ⟨span, mem_writtenSpans ht (by rw [hpackets]; simp) hmem, hlow, hhigh⟩
      · by_contra hnot
        exact hlisted ⟨ht, before, entry.packet, after, hpackets, hbefore, span, hmem, byte, hlow,
          hhigh, hnot⟩
    · unfold execute executeFrom at hentry
      rw [Bool.not_eq_true] at ht
      rw [ht] at hentry
      cases hentry

/-- A dump of the z-pass counters at `0x1000`. -/
def zpassDump : List Byte :=
  [commandHeader EVENT_WRITE 3, ZPASS_DONE, 0x1000, 0].flatMap (toLeBytes 4)

/-- The dump writes its first counter, and nothing is listed. -/
theorem zpass_dump_unlisted : writtenSpans zpassDump = [] ∧ ¬ SpansCover zpassDump := by
  have hnone : writtenSpans zpassDump = [] := by decide
  refine ⟨hnone, WritesUnlisted.not_cover ⟨by decide, [], packetAt 0 (commandHeader EVENT_WRITE 3), [],
    by decide, by simp, (0x1000, 8), by decide, 0x1000, by decide, by decide, ?_⟩⟩
  rw [hnone]
  rintro ⟨span, hspan, -⟩
  cases hspan

end Orbistoun.Gpu.Cp
