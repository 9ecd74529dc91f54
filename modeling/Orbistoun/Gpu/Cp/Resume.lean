import Orbistoun.Gpu.Cp.Counts
import Orbistoun.Gpu.Cp.Segments

/-! # Stopping and going on

A stream that stopped goes on from the packet it stopped at. The segments are found again
from the whole stream each time, and a stop never falls inside one, so the calls together
carry out what one run would.
-/

namespace Orbistoun.Gpu.Cp

open Lib Lib.Runs

/-- The calls that carry a stream out: each from where the one before it stopped, with
whatever memory it then finds. -/
def session (stream : List Byte) : List CpMemory → Nat → List (CpExecution × List Entry)
  | [], _ => []
  | memory :: rest, start =>
      let ran := executeFrom stream start memory
      match ran.1.stopped.offset with
      | some offset => ran :: session stream rest offset
      | none => [ran]

/-- A command the walk does not pass over. -/
def Packet.effective (stream : List Byte) (p : Packet) : Bool :=
  p.opcode?.any (fun opcode => !isMemoryInert opcode ((bodyBytes stream p).length / 4))

def carriedPackets (entries : List Entry) : List Packet :=
  (entries.filter Entry.carried).map Entry.packet

def Entry.counted (stream : List Byte) (e : Entry) : Counts :=
  if e.packet.isDraw then { draws := 1 }
  else
    match e.packet.opcode? with
    | some opcode => ownCounts opcode (wordsOf (bodyBytes stream e.packet)) e.turns
    | none => 0

/-- What a packet that was come to did: a draw had its segment drawn where it is the first of
one, and did nothing where it is not; any other did its own work. -/
structure Entry.Right (stream : List Byte) (segments : List DrawSegment) (e : Entry) : Prop where
  draw : e.packet.isDraw = true →
    e.turns = (segments.find? (fun segment => segment.first == e.packet.offset)).toList.map
      (fun segment => ⟨.runDraws segment, e.carried⟩)
  own : e.packet.isDraw = false → ∃ opcode out, e.packet.opcode? = some opcode ∧
    (e.packet.work stream opcode).Goes e.turns out ∧ (e.carried = true ↔ out.1 = .ok ())

/-- The calls together go through the packets once: a packet is come to when the ones with an
effect before it have each been carried out once, in order, and none behind it has; a call
ends at the first that is left, and stops nowhere else; and what is counted is what was carried
out. -/
structure RunsThrough (stream : List Byte) (packets : List Packet)
    (calls : List (CpExecution × List Entry)) : Prop where
  order : ∀ before e after, calls.flatMap Prod.snd = before ++ e :: after →
    ∃ later, packets.filter (Packet.effective stream) = carriedPackets before ++ e.packet :: later
  ended : ∀ ran, calls.getLast? = some ran → ∃ rest,
    packets.filter (Packet.effective stream) = carriedPackets (calls.flatMap Prod.snd) ++ rest ∧
      rest.head?.map Packet.offset = ran.1.stopped.offset
  stops : ∀ ran ∈ calls, ∀ e ∈ ran.2, e.carried = false →
    ran.2.getLast? = some e ∧ ran.1.stopped.offset = some e.packet.offset
  refused : ∀ ran ∈ calls, ∀ offset, ran.1.stopped.offset = some offset →
    ∃ e, ran.2.getLast? = some e ∧ e.carried = false ∧ e.packet.offset = offset
  right : ∀ ran ∈ calls, ∀ e ∈ ran.2, e.Right stream (drawSegments stream (walk stream).packets)
  counts : (calls.map (fun ran => ran.1.counts.packets)).sum =
    (((calls.flatMap Prod.snd).filter Entry.carried).map (Entry.counted stream)).sum

/-- The calls together are one run of the stream, with nothing that has an effect or can stop
between the draws of a segment. -/
structure OneRun (stream : List Byte) (calls : List (CpExecution × List Entry)) : Prop
    extends RunsThrough stream (walk stream).packets calls where
  within : ∀ segment ∈ drawSegments stream (walk stream).packets, ∀ p ∈ (walk stream).packets,
    segment.first ≤ p.offset → p.offset < segment.endAt →
      p.isDraw = true ∨ p.effective stream = false

variable {stream : List Byte}

/-! ## The segments still to come -/

theorem dropWhile_congr {all : List DrawSegment} {f g : DrawSegment → Bool}
    (h : ∀ segment ∈ all, f segment = g segment) : all.dropWhile f = all.dropWhile g := by
  induction all with
  | nil => rfl
  | cons segment all ih =>
      rw [List.dropWhile_cons, List.dropWhile_cons, h segment List.mem_cons_self,
        ih (fun s hs => h s (List.mem_cons_of_mem _ hs))]

theorem dropWhile_of_forall {all : List DrawSegment} {f : DrawSegment → Bool}
    (h : ∀ segment ∈ all, f segment = false) : all.dropWhile f = all := by
  cases all with
  | nil => rfl
  | cons segment all => rw [List.dropWhile_cons, h segment List.mem_cons_self]; rfl

theorem nextIf_dropWhile {all : List DrawSegment} (h : all.Pairwise (fun s t => s.first < t.first))
    (offset : Nat) :
    nextIf (all.dropWhile (fun s => s.first < offset)) offset =
      (all.find? (fun s => s.first == offset), all.dropWhile (fun s => s.first ≤ offset)) := by
  induction all with
  | nil => rfl
  | cons segment all ih =>
      rw [List.pairwise_cons] at h
      rw [List.dropWhile_cons, List.dropWhile_cons, List.find?_cons]
      rcases Nat.lt_trichotomy segment.first offset with hlt | heq | hgt
      · have hne : (segment.first == offset) = false := by simpa using Nat.ne_of_lt hlt
        simp only [hlt, Nat.le_of_lt hlt, decide_true, if_true, hne]
        exact ih h.2
      · have hnone : all.dropWhile (fun s => decide (s.first ≤ offset)) = all := by
          refine dropWhile_of_forall (fun s hs => ?_)
          have := h.1 s hs
          simp only [decide_eq_false_iff_not]
          omega
        simp [heq, nextIf, hnone]
      · have hne : (segment.first == offset) = false := by simpa using Nat.ne_of_gt hgt
        have hfind : all.find? (fun s => s.first == offset) = none := by
          rw [List.find?_eq_none]
          intro s hs
          have := h.1 s hs
          simp only [beq_iff_eq]
          omega
        simp [Nat.not_lt.mpr (Nat.le_of_lt hgt), Nat.not_le.mpr hgt, nextIf, hne, hfind]

def StartsAmong (all : List DrawSegment) (start : Nat) (packets : List Packet) : Prop :=
  ∀ segment ∈ all, start ≤ segment.first → ∃ q ∈ packets, q.isDraw = true ∧ q.offset = segment.first

variable {all : List DrawSegment} {start stop : Nat} {p : Packet} {packets : List Packet}

theorem StartsAmong.next (h : StartsAmong all start (p :: packets))
    (hchain : Chained start stop (p :: packets)) : StartsAmong all (start + p.length) packets := by
  intro segment hmem hle
  obtain ⟨hoffset, hlength, -⟩ := hchain
  obtain ⟨q, hq, hdraw, hfirst⟩ := h segment hmem (by omega)
  rcases List.mem_cons.mp hq with rfl | hq
  · omega
  · exact ⟨q, hq, hdraw, hfirst⟩

theorem StartsAmong.not_inside (h : StartsAmong all start (p :: packets))
    (hchain : Chained start stop (p :: packets)) {segment : DrawSegment} (hmem : segment ∈ all)
    (hlow : start ≤ segment.first) (hhigh : segment.first < start + p.length) :
    segment.first = start ∧ p.isDraw = true := by
  obtain ⟨hoffset, hlength, hrest⟩ := hchain
  obtain ⟨q, hq, hdraw, hfirst⟩ := h segment hmem hlow
  rcases List.mem_cons.mp hq with rfl | hq
  · exact ⟨by omega, hdraw⟩
  · have := (hrest.mem hq).1
    omega

theorem StartsAmong.dropWhile_of_not_isDraw (h : StartsAmong all start (p :: packets))
    (hchain : Chained start stop (p :: packets)) (hdraw : p.isDraw = false) :
    all.dropWhile (fun s => decide (s.first < start)) =
      all.dropWhile (fun s => decide (s.first < start + p.length)) := by
  refine dropWhile_congr (fun segment hmem => decide_eq_decide.mpr ?_)
  by_cases hin : start ≤ segment.first ∧ segment.first < start + p.length
  · have hstart := (h.not_inside hchain hmem hin.1 hin.2).2
    rw [hdraw] at hstart
    cases hstart
  · omega

/-- Past a draw the segments to come are those that start behind it. -/
theorem StartsAmong.dropWhile_of_isDraw (h : StartsAmong all start (p :: packets))
    (hchain : Chained start stop (p :: packets)) :
    all.dropWhile (fun s => decide (s.first ≤ start)) =
      all.dropWhile (fun s => decide (s.first < start + p.length)) := by
  refine dropWhile_congr (fun segment hmem => decide_eq_decide.mpr ?_)
  have hlength := hchain.2.1
  by_cases hin : start ≤ segment.first ∧ segment.first < start + p.length
  · have hstart := (h.not_inside hchain hmem hin.1 hin.2).1
    omega
  · omega

/-! ## One packet -/

theorem isMemoryInert_of_isDraw {opcode : Nat} (h : Cp.isDraw opcode = true) (n : Nat) :
    isMemoryInert opcode n = false := by
  simp only [Cp.isDraw, Bool.or_eq_true, beq_iff_eq] at h
  rcases h with (rfl | rfl) | rfl <;> rfl

theorem effective_of_isDraw (h : p.isDraw = true) : p.effective stream = true := by
  unfold Packet.isDraw at h
  unfold Packet.effective
  cases hop : p.opcode? with
  | none =>
      rw [hop] at h
      cases h
  | some opcode =>
      rw [hop] at h
      rw [Option.any_some, isMemoryInert_of_isDraw h]
      rfl

theorem kind_of_opcode {opcode : Nat} (h : p.opcode? = some opcode) : p.kind = .command opcode := by
  unfold Packet.opcode? at h
  split at h
  · next hkind =>
    cases h
    exact hkind
  · cases h

theorem stepPacket_passed (hkind : p.kind ≠ .reserved) (h : p.effective stream = false)
    (segments : List DrawSegment) (result : CpExecution) :
    stepPacket stream p segments result = .done .passedOver := by
  unfold Packet.effective Packet.opcode? at h
  unfold stepPacket
  cases hp : p.kind with
  | registerWrite base => rfl
  | filler => rfl
  | reserved => exact absurd hp hkind
  | command opcode =>
      rw [hp] at h
      simp only [Option.any_some, Bool.not_eq_false'] at h
      simp only [h, if_true]

theorem stepPacket_draw (stream : List Byte) (h : p.isDraw = true) (segments : List DrawSegment)
    (result : CpExecution) :
    ∃ opcode, stepPacket stream p segments result =
      match nextIf segments p.offset with
      | (some segment, rest) => .ask (.runDraws segment) (fun (accepted : Bool) =>
          if accepted then
            .done (.carriedOut rest { result with counts := result.counts + { draws := 1 } })
          else .done (.stopped (stoppedAt result .needsGpu p.offset opcode (bodyBytes stream p))))
      | (none, segments) =>
          .done (.carriedOut segments { result with counts := result.counts + { draws := 1 } }) := by
  unfold Packet.isDraw at h
  cases hop : p.opcode? with
  | none =>
      rw [hop] at h
      cases h
  | some opcode =>
      rw [hop] at h
      refine ⟨opcode, ?_⟩
      rw [Option.any_some] at h
      have hinert := isMemoryInert_of_isDraw h ((bodyBytes stream p).length / 4)
      rw [stepPacket, kind_of_opcode hop]
      exact (if_neg (by simp [hinert])).trans (if_pos h)

theorem carried_of_effective (h : p.effective stream = true) (hdraw : p.isDraw = false) :
    ∃ opcode, p.opcode? = some opcode ∧ p.Carried stream opcode := by
  unfold Packet.isDraw at hdraw
  unfold Packet.effective at h
  cases hop : p.opcode? with
  | none =>
      rw [hop] at h
      cases h
  | some opcode =>
      rw [hop, Option.any_some] at h hdraw
      exact ⟨opcode, rfl, kind_of_opcode hop, by simpa using h, hdraw⟩

theorem stopped_offset (stop : Stop) (offset opcode : Nat) :
    (stop.stopped offset opcode).offset = some offset := by
  cases stop <;> rfl

/-! ## One call -/

/-- What the walk of some packets came to: the packets done, and what is left from the stop
on. -/
structure LoopRan (stream : List Byte) (all : List DrawSegment) (packets : List Packet)
    (result : CpExecution) (ran : CpExecution × List Entry) : Prop where
  split : ∃ done rest log tail, packets = done ++ rest ∧ ran.2 = log ++ tail ∧
    (∀ e ∈ log, e.carried = true) ∧ log.map Entry.packet = done.filter (Packet.effective stream) ∧
    ran.1.counts.packets = result.counts.packets + (log.map (Entry.counted stream)).sum ∧
    (rest = [] ∧ tail = [] ∧ ran.1.stopped = result.stopped ∨
      ∃ p later e, rest = p :: later ∧ tail = [e] ∧ e.packet = p ∧ e.carried = false ∧
        p.effective stream = true ∧ ran.1.stopped.offset = some p.offset)
  right : ∀ e ∈ ran.2, e.Right stream all

/-- A packet passed over leaves what the rest comes to. -/
theorem LoopRan.pass {result : CpExecution} {ran : CpExecution × List Entry}
    (h : LoopRan stream all packets result ran) (hp : p.effective stream = false) :
    LoopRan stream all (p :: packets) result ran := by
  obtain ⟨⟨done, rest, log, tail, rfl, hlog, hcarried, hpackets, hcounts, hend⟩, hright⟩ := h
  refine ⟨⟨p :: done, rest, log, tail, rfl, hlog, hcarried, ?_, hcounts, hend⟩, hright⟩
  rw [List.filter_cons_of_neg (by simp [hp])]
  exact hpackets

/-- A packet carried out goes before what the rest comes to. -/
theorem LoopRan.carry {result result' : CpExecution} {ran : CpExecution × List Entry} {turns : Turns}
    (h : LoopRan stream all packets result' ran) (hp : p.effective stream = true)
    (hright : Entry.Right stream all ⟨p, turns, true⟩)
    (hcounts : result'.counts.packets =
      result.counts.packets + Entry.counted stream ⟨p, turns, true⟩)
    (hstopped : result'.stopped = result.stopped) :
    LoopRan stream all (p :: packets) result (ran.1, ⟨p, turns, true⟩ :: ran.2) := by
  obtain ⟨⟨done, rest, log, tail, rfl, hlog, hcarried, hpackets, hsum, hend⟩, hrest⟩ := h
  refine ⟨⟨p :: done, rest, ⟨p, turns, true⟩ :: log, tail, rfl, ?_, ?_, ?_, ?_, ?_⟩, ?_⟩
  · show _ :: ran.2 = _
    rw [hlog]
    rfl
  · intro e he
    rcases List.mem_cons.mp he with rfl | he
    · rfl
    · exact hcarried e he
  · rw [List.filter_cons_of_pos hp, List.map_cons, hpackets]
  · rw [hsum, hcounts, List.map_cons, List.sum_cons, add_assoc]
  · rw [← hstopped]
    exact hend
  · intro e he
    rcases List.mem_cons.mp he with rfl | he
    · exact hright
    · exact hrest e he

theorem loopRan_stop {result result' : CpExecution} {turns : Turns} (hp : p.effective stream = true)
    (hright : Entry.Right stream all ⟨p, turns, false⟩)
    (hcounts : result'.counts.packets = result.counts.packets)
    (hstopped : result'.stopped.offset = some p.offset) :
    LoopRan stream all (p :: packets) result (result', [⟨p, turns, false⟩]) := by
  refine ⟨⟨[], p :: packets, [], [⟨p, turns, false⟩], rfl, rfl, by simp, rfl, ?_,
    .inr ⟨p, packets, _, rfl, rfl, rfl, rfl, hp, hstopped⟩⟩, ?_⟩
  · rw [List.map_nil, List.sum_nil, add_zero]
    exact hcounts
  · intro e he
    rw [List.mem_singleton.mp he]
    exact hright

theorem packets_counts (result : CpExecution) (more : Counts) :
    ({ result with counts := result.counts + more } : CpExecution).counts.packets =
      result.counts.packets + more.packets := rfl

theorem counted_own {opcode : Nat} (hdraw : p.isDraw = false) (hop : p.opcode? = some opcode)
    (turns : Turns) (carried : Bool) :
    Entry.counted stream ⟨p, turns, carried⟩ =
      ownCounts opcode (wordsOf (bodyBytes stream p)) turns := by
  simp only [Entry.counted, hdraw, Bool.false_eq_true, if_false, hop]

section Turns

variable {σ : Type} (answer : (c : Call) → σ → c.Answer × σ)
  (hchain : Chained start stop (p :: packets)) (hstarts : StartsAmong all start (p :: packets))
  (hnext : ∀ (result : CpExecution) (s : σ), LoopRan stream all packets result
    (executeLoop answer stream packets (all.dropWhile (fun s => s.first < start + p.length))
      result s))
  (heffect : p.effective stream = true) (result : CpExecution) (s : σ)

include hchain hstarts hnext heffect

/-- The walk from a draw on. -/
theorem executeLoop_draw (hsorted : all.Pairwise (fun s t => s.first < t.first))
    (hdraw : p.isDraw = true) :
    LoopRan stream all (p :: packets) result (executeLoop answer stream (p :: packets)
      (all.dropWhile (fun s => s.first < start)) result s) := by
  have hoffset := hchain.1
  obtain ⟨opcode, hstep⟩ := stepPacket_draw stream hdraw
    (all.dropWhile (fun s => decide (s.first < start))) result
  rw [executeLoop, hstep, hoffset, nextIf_dropWhile hsorted, hstarts.dropWhile_of_isDraw hchain]
  have hright : ∀ turns carried, turns =
      (all.find? (fun segment => segment.first == start)).toList.map
        (fun segment => ⟨.runDraws segment, carried⟩) →
      Entry.Right stream all ⟨p, turns, carried⟩ := by
    intro turns carried hturns
    refine ⟨fun _ => ?_, fun h => ?_⟩
    · show turns = _
      rw [hturns, hoffset]
    · rw [hdraw] at h
      cases h
  have hcounted : ∀ turns, Entry.counted stream ⟨p, turns, true⟩ = { draws := 1 } :=
    fun turns => if_pos hdraw
  cases hfind : all.find? (fun segment => segment.first == start) with
  | none =>
      refine (hnext _ s).carry heffect (hright [] true (by rw [hfind]; rfl)) ?_ rfl
      rw [packets_counts, hcounted]
      rfl
  | some segment =>
      dsimp only [Dialogue.run]
      generalize answer (.runDraws segment) s = answered
      obtain ⟨accepted, s'⟩ := answered
      cases (accepted : Bool) with
      | true =>
          refine (hnext _ s').carry heffect (hright _ true (by rw [hfind]; rfl)) ?_ rfl
          rw [packets_counts, hcounted]
          rfl
      | false =>
          exact loopRan_stop heffect (hright _ false (by rw [hfind]; rfl)) rfl (by rw [hoffset]; rfl)

/-- The walk from a packet on that has an effect and is no draw. -/
theorem executeLoop_carried (hdraw : p.isDraw = false) :
    LoopRan stream all (p :: packets) result (executeLoop answer stream (p :: packets)
      (all.dropWhile (fun s => s.first < start)) result s) := by
  obtain ⟨opcode, hop, hcarried⟩ := carried_of_effective heffect hdraw
  have hgoes := Dialogue.goes_run answer (p.work stream opcode) s
  have hcounted := carryOut_counted stream p.offset opcode (wordsOf (bodyBytes stream p))
  rw [executeLoop, stepPacket_carried hcarried, Dialogue.run_bind]
  generalize (p.work stream opcode).run answer s = ran at hgoes
  obtain ⟨⟨x, more⟩, s', turns⟩ := ran
  have hright : ∀ carried, (carried = true ↔ x = .ok ()) →
      Entry.Right stream all ⟨p, turns, carried⟩ := by
    intro carried hiff
    refine ⟨fun h => ?_, fun _ => ⟨opcode, _, hop, hgoes, hiff⟩⟩
    rw [hdraw] at h
    cases h
  have hcount := hcounted turns x more hgoes
  cases x with
  | ok a =>
      dsimp only [Dialogue.run, Packet.settle]
      rw [List.append_nil, hstarts.dropWhile_of_not_isDraw hchain hdraw]
      refine (hnext _ s').carry heffect (hright true (by simp)) ?_ rfl
      rw [packets_counts, counted_own hdraw hop]
      exact congrArg _ hcount
  | error stop =>
      dsimp only [Dialogue.run, Packet.settle]
      rw [List.append_nil]
      refine loopRan_stop heffect (hright false (by simp)) ?_ (stopped_offset _ _ _)
      show result.counts.packets + more.packets = result.counts.packets
      rw [show more.packets = 0 from hcount, add_zero]

end Turns

/-- What the walk comes to over the packets from an offset on, with the segments from there
on. -/
theorem executeLoop_ran {σ : Type} (answer : (c : Call) → σ → c.Answer × σ)
    (hsorted : all.Pairwise (fun s t => s.first < t.first)) (hchain : Chained start stop packets)
    (hstarts : StartsAmong all start packets) (hkinds : ∀ p ∈ packets, p.kind ≠ .reserved)
    (result : CpExecution) (s : σ) :
    LoopRan stream all packets result
      (executeLoop answer stream packets (all.dropWhile (fun s => s.first < start)) result s) := by
  induction packets generalizing start result s with
  | nil =>
      refine ⟨⟨[], [], [], [], rfl, rfl, by simp, rfl, ?_, .inl ⟨rfl, rfl, rfl⟩⟩, ?_⟩
      · rw [List.map_nil, List.sum_nil, add_zero]
        rfl
      · intro e he
        cases he
  | cons p packets ih =>
      have hnext := ih hchain.2.2 (hstarts.next hchain) (fun q hq => hkinds q (List.mem_cons_of_mem _ hq))
      cases heffect : p.effective stream with
      | false =>
          have hdraw : p.isDraw = false := by
            by_contra h
            rw [effective_of_isDraw (by simpa using h)] at heffect
            cases heffect
          rw [executeLoop, stepPacket_passed (hkinds p List.mem_cons_self) heffect,
            hstarts.dropWhile_of_not_isDraw hchain hdraw]
          exact (hnext result s).pass heffect
      | true =>
          cases hdraw : p.isDraw with
          | true => exact executeLoop_draw answer hchain hstarts hnext heffect result s hsorted hdraw
          | false => exact executeLoop_carried answer hchain hstarts hnext heffect result s hdraw

/-! ## All the calls -/

theorem carriedPackets_append (first rest : List Entry) :
    carriedPackets (first ++ rest) = carriedPackets first ++ carriedPackets rest := by
  simp [carriedPackets]

theorem carriedPackets_of_carried {entries : List Entry} (h : ∀ e ∈ entries, e.carried = true) :
    carriedPackets entries = entries.map Entry.packet := by
  unfold carriedPackets
  rw [List.filter_eq_self.mpr h]

theorem carriedPackets_cons_false {e : Entry} (h : e.carried = false) (entries : List Entry) :
    carriedPackets (e :: entries) = carriedPackets entries := by
  unfold carriedPackets
  rw [List.filter_cons_of_neg (by simp [h])]

theorem runsThrough_nil (packets : List Packet) : RunsThrough stream packets [] where
  order := by
    intro before e after h
    simp at h
  ended := by
    intro ran h
    cases h
  stops := by simp
  refused := by simp
  right := by simp
  counts := rfl

theorem runsThrough_completed {ran : CpExecution × List Entry}
    (hcarried : ∀ e ∈ ran.2, e.carried = true)
    (hpackets : ran.2.map Entry.packet = packets.filter (Packet.effective stream))
    (hcounts : ran.1.counts.packets = (ran.2.map (Entry.counted stream)).sum)
    (hstopped : ran.1.stopped.offset = none)
    (hright : ∀ e ∈ ran.2, e.Right stream (drawSegments stream (walk stream).packets)) :
    RunsThrough stream packets [ran] where
  order := by
    intro before e after h
    rw [List.flatMap_singleton] at h
    refine ⟨after.map Entry.packet, ?_⟩
    have hbefore : ∀ e ∈ before, e.carried = true := by
      intro e he
      exact hcarried e (by rw [h]; exact List.mem_append_left _ he)
    rw [← hpackets, h, List.map_append, List.map_cons, carriedPackets_of_carried hbefore]
  ended := by
    intro ran' h
    rw [List.getLast?_singleton, Option.some.injEq] at h
    subst h
    rw [List.flatMap_singleton, carriedPackets_of_carried hcarried, hpackets, hstopped]
    exact ⟨[], (List.append_nil _).symm, rfl⟩
  stops := by
    intro ran' hran e he hfalse
    rw [List.mem_singleton.mp hran] at he
    rw [hcarried e he] at hfalse
    cases hfalse
  refused := by
    intro ran' hran offset hoffset
    rw [List.mem_singleton.mp hran, hstopped] at hoffset
    cases hoffset
  right := by
    intro ran' hran
    rw [List.mem_singleton.mp hran]
    exact hright
  counts := by
    rw [List.flatMap_singleton, List.filter_eq_self.mpr hcarried, List.map_singleton,
      List.sum_singleton, hcounts]

/-- What comes of a packet, of those a call that stops at `p` came to and those the later calls did. -/
theorem RunsThrough.order_resume {done later : List Packet} {log : List Entry} {e : Entry}
    {calls : List (CpExecution × List Entry)} (h : RunsThrough stream (p :: later) calls)
    (hcarried : ∀ e ∈ log, e.carried = true) (hpacket : e.packet = p) (hfalse : e.carried = false)
    (heffect : p.effective stream = true)
    (hfilter : (done ++ p :: later).filter (Packet.effective stream) =
      log.map Entry.packet ++ (p :: later).filter (Packet.effective stream))
    {before after : List Entry} {e' : Entry}
    (hsplit : log ++ e :: calls.flatMap Prod.snd = before ++ e' :: after) :
    ∃ rest, (done ++ p :: later).filter (Packet.effective stream) =
      carriedPackets before ++ e'.packet :: rest := by
  rw [hfilter]
  rcases List.append_eq_append_iff.mp hsplit with ⟨middle, hbefore, hrest⟩ | ⟨middle, hbefore, hrest⟩
  · cases middle with
    | nil =>
        -- The packet stopped at.
        cases hrest
        rw [List.append_nil] at hbefore
        refine ⟨later.filter (Packet.effective stream), ?_⟩
        rw [hbefore, carriedPackets_of_carried hcarried, List.filter_cons_of_pos heffect, hpacket]
    | cons first middle =>
        -- A packet the later calls come to.
        rw [List.cons_append] at hrest
        obtain ⟨rfl, hlater⟩ := List.cons.inj hrest
        obtain ⟨after', hafter⟩ := h.order middle e' after hlater
        refine ⟨after', ?_⟩
        rw [hafter, hbefore, carriedPackets_append, carriedPackets_of_carried hcarried,
          carriedPackets_cons_false hfalse, List.append_assoc]
  · -- A packet carried out before the stop.
    cases middle with
    | nil =>
        cases hrest
        rw [List.append_nil] at hbefore
        refine ⟨later.filter (Packet.effective stream), ?_⟩
        rw [← hbefore, carriedPackets_of_carried hcarried, List.filter_cons_of_pos heffect, hpacket]
    | cons first middle =>
        obtain ⟨rfl, -⟩ := List.cons.inj hrest
        have hcarried' : ∀ e ∈ before, e.carried = true := by
          intro e he
          exact hcarried e (by rw [hbefore]; exact List.mem_append_left _ he)
        refine ⟨middle.map Entry.packet ++ (p :: later).filter (Packet.effective stream), ?_⟩
        rw [hbefore, List.map_append, List.map_cons, carriedPackets_of_carried hcarried',
          List.append_assoc, List.cons_append]

theorem RunsThrough.resume {done later : List Packet} {ran : CpExecution × List Entry}
    {log : List Entry} {e : Entry} {calls : List (CpExecution × List Entry)}
    (h : RunsThrough stream (p :: later) calls) (hlog : ran.2 = log ++ [e])
    (hcarried : ∀ e ∈ log, e.carried = true)
    (hpackets : log.map Entry.packet = done.filter (Packet.effective stream))
    (hcounts : ran.1.counts.packets = (log.map (Entry.counted stream)).sum)
    (hpacket : e.packet = p) (hfalse : e.carried = false) (heffect : p.effective stream = true)
    (hstopped : ran.1.stopped.offset = some p.offset)
    (hright : ∀ e ∈ ran.2, e.Right stream (drawSegments stream (walk stream).packets)) :
    RunsThrough stream (done ++ p :: later) (ran :: calls) := by
  have hall : (ran :: calls).flatMap Prod.snd = log ++ e :: calls.flatMap Prod.snd := by
    rw [List.flatMap_cons, hlog, List.append_assoc, List.singleton_append]
  have hfilter : (done ++ p :: later).filter (Packet.effective stream) =
      log.map Entry.packet ++ (p :: later).filter (Packet.effective stream) := by
    rw [List.filter_append, hpackets]
  have hdone : carriedPackets (log ++ e :: calls.flatMap Prod.snd) =
      log.map Entry.packet ++ carriedPackets (calls.flatMap Prod.snd) := by
    rw [carriedPackets_append, carriedPackets_of_carried hcarried, carriedPackets_cons_false hfalse]
  refine ⟨?_, ?_, ?_, ?_, ?_, ?_⟩
  · intro before e' after hsplit
    rw [hall] at hsplit
    exact h.order_resume hcarried hpacket hfalse heffect hfilter hsplit
  · intro ran' hlast
    rw [hall, hdone, hfilter]
    cases calls with
    | nil =>
        rw [List.getLast?_singleton, Option.some.injEq] at hlast
        subst hlast
        refine ⟨(p :: later).filter (Packet.effective stream), by simp [carriedPackets], ?_⟩
        rw [List.filter_cons_of_pos heffect, hstopped]
        rfl
    | cons next calls =>
        rw [List.getLast?_cons_cons] at hlast
        obtain ⟨rest, hrest, hhead⟩ := h.ended ran' hlast
        exact ⟨rest, by rw [hrest, List.append_assoc], hhead⟩
  · intro ran' hran e' he' hfalse'
    rcases List.mem_cons.mp hran with rfl | hran
    · rw [hlog] at he' ⊢
      rcases List.mem_append.mp he' with he' | he'
      · rw [hcarried e' he'] at hfalse'
        cases hfalse'
      · rw [List.mem_singleton.mp he', hpacket]
        exact ⟨List.getLast?_concat, hstopped⟩
    · exact h.stops ran' hran e' he' hfalse'
  · intro ran' hran offset hoffset
    rcases List.mem_cons.mp hran with rfl | hran
    · rw [hstopped, Option.some.injEq] at hoffset
      rw [hlog]
      exact ⟨e, List.getLast?_concat, hfalse, by rw [hpacket, hoffset]⟩
    · exact h.refused ran' hran offset hoffset
  · intro ran' hran
    rcases List.mem_cons.mp hran with rfl | hran
    · exact hright
    · exact h.right ran' hran
  · rw [hall, List.map_cons, List.sum_cons, h.counts, hcounts, List.filter_append,
      List.filter_eq_self.mpr hcarried, List.filter_cons_of_neg (by simp [hfalse]), List.map_append,
      List.sum_append]

/-! ## A stream's segments as the calls use them -/

theorem drawSegments_first (stream : List Byte) (packets : List Packet) :
    StartsAmong (drawSegments stream packets) 0 packets := by
  intro segment hmem _
  obtain ⟨parts, tail, hdiv, hsegments⟩ := drawSegments_spec stream packets
  obtain ⟨part, hpart, hfirst⟩ : ∃ part ∈ parts, segment.first = (runSegment stream part.2).first := by
    rcases hsegments with ⟨part, rfl, hone⟩ | ⟨-, hmany⟩
    · rw [hone, List.mem_singleton] at hmem
      exact ⟨part, List.mem_singleton.mpr rfl, by rw [hmem]⟩
    · rw [hmany, List.mem_map] at hmem
      obtain ⟨part, hpart, rfl⟩ := hmem
      exact ⟨part, hpart, rfl⟩
  obtain ⟨q, hq, hdraw⟩ := (hdiv.runs part hpart).first
  refine ⟨q, ?_, hdraw, by rw [hfirst]; simp [runSegment, hq]⟩
  rw [hdiv.whole]
  exact List.mem_append_left _
    (List.mem_flatMap.mpr ⟨part, hpart, List.mem_append_right _ (List.mem_of_mem_head? hq)⟩)

theorem drawSegments_sorted (hfit : stream.length ≤ u32Max)
    (ht : (walk stream).isTrustworthy = true) :
    (drawSegments stream (walk stream).packets).Pairwise (fun s t => s.first < t.first) := by
  obtain ⟨hordered, hproper⟩ := drawSegments_ordered hfit ht
  refine hordered.imp_of_mem (fun {s t} hs _ hle => ?_)
  have := hproper s hs
  omega

theorem executeFrom_ran (hfit : stream.length ≤ u32Max) (ht : (walk stream).isTrustworthy = true)
    {before : List Packet} (hsplit : (walk stream).packets = before ++ packets)
    (hbefore : ∀ q ∈ before, q.offset < start) (hchain : Chained start stop packets)
    (memory : CpMemory) :
    LoopRan stream (drawSegments stream (walk stream).packets) packets {}
      (executeFrom stream start memory) := by
  have hfilter : (walk stream).packets.filter (fun p => decide (start ≤ p.offset)) = packets := by
    rw [hsplit, List.filter_append, List.filter_eq_nil_iff.mpr, List.filter_eq_self.mpr, List.nil_append]
    · intro q hq
      exact decide_eq_true (hchain.mem hq).1
    · intro q hq
      have := hbefore q hq
      simp only [decide_eq_true_eq]
      omega
  have hstarts : StartsAmong (drawSegments stream (walk stream).packets) start packets := by
    intro segment hmem hle
    obtain ⟨q, hq, hdraw, hfirst⟩ := drawSegments_first stream _ segment hmem (Nat.zero_le _)
    rw [hsplit] at hq
    rcases List.mem_append.mp hq with hq | hq
    · have := hbefore q hq
      omega
    · exact ⟨q, hq, hdraw, hfirst⟩
  unfold executeFrom
  rw [ht, hfilter]
  refine executeLoop_ran memory.answer (drawSegments_sorted hfit ht) hchain hstarts (fun p hp => ?_) {}
    memory.state
  exact not_reserved ht (by rw [hsplit]; exact List.mem_append_right _ hp)

theorem Chained.split {done later : List Packet} (h : Chained start stop (done ++ p :: later)) :
    Chained p.offset stop (p :: later) ∧ ∀ q ∈ done, q.offset < p.offset := by
  induction done generalizing start with
  | nil =>
      refine ⟨?_, by simp⟩
      rw [List.nil_append] at h
      exact ⟨rfl, h.2.1, by rw [h.1]; exact h.2.2⟩
  | cons q done ih =>
      obtain ⟨hoffset, hlength, hrest⟩ := h
      obtain ⟨hchain, hbefore⟩ := ih hrest
      refine ⟨hchain, fun r hr => ?_⟩
      rcases List.mem_cons.mp hr with rfl | hr
      · have := (hrest.mem (List.mem_append_right done List.mem_cons_self)).1
        omega
      · exact hbefore r hr

theorem session_runsThrough (hfit : stream.length ≤ u32Max)
    (ht : (walk stream).isTrustworthy = true) (memories : List CpMemory) {before : List Packet}
    (hsplit : (walk stream).packets = before ++ packets)
    (hbefore : ∀ q ∈ before, q.offset < start) (hchain : Chained start stop packets) :
    RunsThrough stream packets (session stream memories start) := by
  induction memories generalizing start before packets with
  | nil => exact runsThrough_nil packets
  | cons memory memories ih =>
      obtain ⟨⟨done, rest, log, tail, hpackets, hlog, hcarried, hmap, hcounts, hend⟩, hright⟩ :=
        executeFrom_ran hfit ht hsplit hbefore hchain memory
      have hcounts' : (executeFrom stream start memory).1.counts.packets =
          (log.map (Entry.counted stream)).sum := by
        rw [hcounts]
        exact zero_add _
      rcases hend with ⟨rfl, rfl, hstopped⟩ | ⟨p, later, e, rfl, rfl, hpacket, hfalse, heffect, hstopped⟩
      · rw [List.append_nil] at hpackets hlog
        have hnone : (executeFrom stream start memory).1.stopped.offset = none := by
          rw [hstopped]
          rfl
        simp only [session, hnone]
        rw [← hlog] at hcarried hmap hcounts'
        exact runsThrough_completed hcarried (by rw [hmap, hpackets]) hcounts' hnone hright
      · rw [hpackets] at hchain hsplit
        obtain ⟨hchain', hdone⟩ := hchain.split
        have hlater : RunsThrough stream (p :: later) (session stream memories p.offset) := by
          refine ih (show _ = (before ++ done) ++ p :: later by rw [hsplit, List.append_assoc])
            (fun q hq => ?_) hchain'
          rcases List.mem_append.mp hq with hq | hq
          · have := hbefore q hq
            have := hchain.mem (List.mem_append_right done (List.mem_cons_self (l := later)))
            omega
          · exact hdone q hq
        simp only [session, hstopped]
        rw [hpackets]
        exact hlater.resume hlog hcarried hmap hcounts' hpacket hfalse heffect hstopped hright

theorem effective_eq (hfit : stream.length ≤ u32Max) (ht : (walk stream).isTrustworthy = true)
    (hp : p ∈ (walk stream).packets) :
    p.effective stream = true → p.isDraw = true ∨ p.hasEffect = true := by
  unfold Packet.effective Packet.isDraw Packet.hasEffect
  rw [length_bodyBytes hfit ht hp]
  cases p.opcode? with
  | none => simp
  | some opcode =>
      intro h
      rw [Option.any_some, Bool.not_eq_true'] at h
      simp only [Option.any_some, h]
      cases Cp.isDraw opcode <;> simp

theorem segment_within (hfit : stream.length ≤ u32Max) (ht : (walk stream).isTrustworthy = true)
    {segment : DrawSegment} (hsegment : segment ∈ drawSegments stream (walk stream).packets)
    (hp : p ∈ (walk stream).packets) (hlow : segment.first ≤ p.offset)
    (hhigh : p.offset < segment.endAt) : p.isDraw = true ∨ p.effective stream = false := by
  obtain ⟨parts, tail, hdiv, hsegments⟩ := drawSegments_spec stream (walk stream).packets
  obtain ⟨part, hpart, hfirst, hend⟩ : ∃ part ∈ parts,
      segment.first = (runSegment stream part.2).first ∧
      segment.endAt = (runSegment stream part.2).endAt := by
    rcases hsegments with ⟨part, rfl, hone⟩ | ⟨-, hmany⟩
    · rw [hone, List.mem_singleton] at hsegment
      exact ⟨part, List.mem_singleton.mpr rfl, by rw [hsegment], by rw [hsegment]⟩
    · rw [hmany, List.mem_map] at hsegment
      obtain ⟨part, hpart, rfl⟩ := hsegment
      exact ⟨part, hpart, rfl, rfl⟩
  obtain ⟨q, hq, -⟩ := (hdiv.runs part hpart).first
  obtain ⟨r, hr, -⟩ := (hdiv.runs part hpart).last
  obtain ⟨first, last, rfl⟩ := List.append_of_mem hpart
  have hpackets : (walk stream).packets =
      (first.flatMap (fun part => part.1 ++ part.2) ++ part.1) ++
        (part.2 ++ (last.flatMap (fun part => part.1 ++ part.2) ++ tail)) := by
    rw [hdiv.whole]
    simp
  have hsorted := (walk_chained hfit ht).sorted
  rw [hpackets] at hsorted
  obtain ⟨-, hright, hahead⟩ := List.pairwise_append.mp hsorted
  obtain ⟨-, -, hbehind⟩ := List.pairwise_append.mp hright
  have hin : r ∈ (walk stream).packets := by
    rw [hpackets]
    exact List.mem_append_right _ (List.mem_append_left _ (List.mem_of_mem_getLast? hr))
  have hendr := (endAt_eq hfit ht hin).1
  have hrun : p ∈ part.2 := by
    rw [hpackets] at hp
    rcases List.mem_append.mp hp with hp | hp
    · have hlt := (hahead p hp q (List.mem_append_left _ (List.mem_of_mem_head? hq))).2
      rw [hfirst] at hlow
      simp only [runSegment, hq, Option.map_some, Option.getD_some] at hlow
      omega
    · rcases List.mem_append.mp hp with hp | hp
      · exact hp
      · have hle := (hbehind r (List.mem_of_mem_getLast? hr) p hp).1
        rw [hend] at hhigh
        simp only [runSegment, hr, Option.map_some, Option.getD_some] at hhigh
        omega
  have huncut := (hdiv.runs part (by simp)).uncut p hrun
  by_cases heffect : p.effective stream = true
  · left
    rcases effective_eq hfit ht hp heffect with hdraw | hcut
    · exact hdraw
    · rw [huncut] at hcut
      cases hcut
  · right
    simpa using heffect

/-- Carried out, and taken up again wherever it stops with whatever memory there then is, a
stream whose offsets fit goes through its packets as one run does. -/
theorem stop_and_resume_is_one_run (stream : List Byte) (hfit : stream.length ≤ u32Max)
    (ht : (walk stream).isTrustworthy = true) (memories : List CpMemory) :
    OneRun stream (session stream memories 0) := by
  have hchain := walk_chained hfit ht
  refine ⟨session_runsThrough hfit ht memories (List.nil_append _).symm (by simp) hchain, ?_⟩
  intro segment hsegment p hp hlow hhigh
  exact segment_within hfit ht hsegment hp hlow hhigh

def drawing : CpMemory where
  State := Unit
  answer c _ :=
    match c with
    | .runDraws _ => (true, ())
    | _ => (default, ())
  state := ()

def drawThenRelease : List Byte :=
  [commandHeader DRAW_INDEX_AUTO 2, 3, 2, commandHeader RELEASE_MEM 7, 0, 1 <<< 29, 0x1000, 0, 1, 0,
    0].flatMap (toLeBytes 4)

theorem stop_and_resume_draw_release :
    drawThenRelease.length ≤ u32Max ∧ (walk drawThenRelease).isTrustworthy = true ∧
      OneRun drawThenRelease (session drawThenRelease [drawing, drawing] 0) :=
  ⟨by decide, by decide, stop_and_resume_is_one_run drawThenRelease (by decide) (by decide) _⟩

/-! ## A stream whose offsets do not fit -/

/-- A draw, and a packet that needs the GPU. -/
def drawThenUnknown : List Byte :=
  [commandHeader DRAW_INDEX_AUTO 2, 3, 2, commandHeader 0xFF 1, 0].flatMap (toLeBytes 4)

def afterFillers (n : Nat) : List Byte :=
  (List.replicate n (toLeBytes 4 0x80000000)).flatten ++ drawThenUnknown

/-- The two packets as the walk has them past the first four GiB. -/
def farDraw : Packet := packetAt u32Max (commandHeader DRAW_INDEX_AUTO 2)
def farUnknown : Packet := packetAt u32Max (commandHeader 0xFF 1)

theorem walkLoop_fillers (n turns offset : Nat) (tail : List Byte) :
    ∃ fillers, (∀ p ∈ fillers, p.kind = .filler) ∧
      walkLoop (turns + n) offset ((List.replicate n (toLeBytes 4 0x80000000)).flatten ++ tail) =
        (fillers ++ (walkLoop turns (offset + 4 * n) tail).1,
          (walkLoop turns (offset + 4 * n) tail).2) := by
  induction n generalizing offset with
  | zero => exact ⟨[], by simp, rfl⟩
  | succ n ih =>
      obtain ⟨fillers, hkinds, hwalk⟩ := ih (offset + 4)
      refine ⟨packetAt offset 0x80000000 :: fillers, fun p hp => ?_, ?_⟩
      · rcases List.mem_cons.mp hp with rfl | hp
        · rfl
        · exact hkinds p hp
      · rw [List.replicate_succ, List.flatten_cons, List.append_assoc, ← Nat.add_assoc turns n 1]
        generalize hrest : (List.replicate n (toLeBytes 4 0x80000000)).flatten ++ tail = rest at hwalk
        have hword : fromLeBytes [0, 0, 0, 128] = 0x80000000 := rfl
        show walkLoop (turns + n + 1) offset (0 :: 0 :: 0 :: 128 :: rest) = _
        rw [walkLoop_succ, hword]
        have hlength : (packetAt offset 0x80000000).length = 4 := rfl
        dsimp only
        rw [hlength, if_neg (by simp), List.drop_succ_cons, List.drop_succ_cons, List.drop_succ_cons,
          List.drop_succ_cons, List.drop_zero, hwalk, List.cons_append,
          show offset + 4 + 4 * n = offset + 4 * (n + 1) by omega]

theorem length_afterFillers (n : Nat) : (afterFillers n).length = 20 + 4 * n := by
  unfold afterFillers
  rw [List.length_append, List.length_flatten, List.map_replicate, List.sum_replicate, length_toLeBytes,
    smul_eq_mul, show drawThenUnknown.length = 20 from rfl]
  omega

theorem packetAt_far {offset : Nat} (h : u32Max ≤ offset) (header : Nat) :
    packetAt offset header = packetAt u32Max header := by
  unfold packetAt
  rw [Nat.min_eq_right h, Nat.min_self]

theorem walkLoop_drawThenUnknown (turns : Nat) {offset : Nat} (h : u32Max ≤ offset) :
    walkLoop (turns + 3) offset drawThenUnknown = ([farDraw, farUnknown], false) := by
  have hdraw : fromLeBytes [0, 45, 1, 192] = commandHeader DRAW_INDEX_AUTO 2 := rfl
  have hunknown : fromLeBytes [0, 255, 0, 192] = commandHeader 0xFF 1 := rfl
  show walkLoop (turns + 2 + 1) offset (0 :: 45 :: 1 :: 192 :: [3, 0, 0, 0, 2, 0, 0, 0, 0, 255, 0, 192,
    0, 0, 0, 0]) = _
  rw [walkLoop_succ, hdraw, packetAt_far h]
  show (farDraw :: (walkLoop (turns + 1 + 1) (offset + 12) (0 :: 255 :: 0 :: 192 :: [0, 0, 0, 0])).1,
    (walkLoop (turns + 1 + 1) (offset + 12) (0 :: 255 :: 0 :: 192 :: [0, 0, 0, 0])).2) = _
  rw [walkLoop_succ, hunknown, packetAt_far (Nat.le_add_right_of_le h)]
  rfl

theorem walk_afterFillers {n : Nat} (h : u32Max ≤ 4 * n) :
    ∃ fillers, (∀ p ∈ fillers, p.kind = .filler) ∧
      (walk (afterFillers n)).packets = fillers ++ [farDraw, farUnknown] ∧
      (walk (afterFillers n)).isTrustworthy = true := by
  have hn : 20 ≤ n := by
    unfold u32Max at h
    omega
  obtain ⟨fillers, hkinds, hwalk⟩ := walkLoop_fillers n (17 + 3 * n + 3) 0 drawThenUnknown
  rw [walkLoop_drawThenUnknown _ (by omega)] at hwalk
  have hloop : walkLoop (afterFillers n).length 0 (afterFillers n) =
      (fillers ++ [farDraw, farUnknown], false) := by
    rw [length_afterFillers, show 20 + 4 * n = 17 + 3 * n + 3 + n by omega]
    exact hwalk
  refine ⟨fillers, hkinds, ?_, ?_⟩
  · unfold walk
    rw [hloop]
  · have hany : (fillers ++ [farDraw, farUnknown]).any (fun p => p.kind == .reserved) = false := by
      rw [List.any_append, Bool.or_eq_false_iff]
      refine ⟨List.any_eq_false.mpr (fun p hp => ?_), rfl⟩
      rw [hkinds p hp]
      decide
    unfold PacketWalk.isTrustworthy walk
    rw [hloop, length_afterFillers]
    simp only [hany, Bool.not_false, Bool.true_and, beq_iff_eq]
    omega

variable {fillers : List Packet}

theorem drawSegments_fillers (hkinds : ∀ p ∈ fillers, p.kind = .filler) (stream : List Byte) :
    ∃ segment, drawSegments stream (fillers ++ [farDraw, farUnknown]) = [segment] ∧
      segment.first = u32Max := by
  have hskip : ∀ scan, fillers.foldl (scanPacket stream) scan = scan := by
    intro scan
    induction fillers with
    | nil => rfl
    | cons p fillers ih =>
        have hp : scanPacket stream scan p = scan := by
          unfold scanPacket
          rw [hkinds p List.mem_cons_self]
        rw [List.foldl_cons, hp]
        exact ih (fun q hq => hkinds q (List.mem_cons_of_mem _ hq))
  unfold drawSegments
  rw [List.foldl_append, hskip]
  exact ⟨_, rfl, rfl⟩

theorem executeLoop_fillers {σ : Type} (answer : (c : Call) → σ → c.Answer × σ) (stream : List Byte)
    (hkinds : ∀ p ∈ fillers, p.kind = .filler) (rest : List Packet) (segments : List DrawSegment)
    (result : CpExecution) (s : σ) :
    executeLoop answer stream (fillers ++ rest) segments result s =
      executeLoop answer stream rest segments result s := by
  induction fillers with
  | nil => rfl
  | cons p fillers ih =>
      have hp : stepPacket stream p segments result = .done .passedOver := by
        unfold stepPacket
        rw [hkinds p List.mem_cons_self]
      rw [List.cons_append, executeLoop, hp]
      exact ih (fun q hq => hkinds q (List.mem_cons_of_mem _ hq))

/-- From anywhere the two packets are come to again: the draw is carried out, and the other
stops at the offset they share. -/
theorem executeFrom_afterFillers {n : Nat} (h : u32Max ≤ 4 * n) (hstart : start ≤ u32Max) :
    ∃ turns turns', (executeFrom (afterFillers n) start drawing).1.stopped.offset = some u32Max ∧
      (executeFrom (afterFillers n) start drawing).2 =
        [⟨farDraw, turns, true⟩, ⟨farUnknown, turns', false⟩] := by
  obtain ⟨fillers, hkinds, hpackets, ht⟩ := walk_afterFillers h
  obtain ⟨segment, hsegments, hfirst⟩ := drawSegments_fillers hkinds (afterFillers n)
  have hkeep : ([segment].dropWhile (fun segment => decide (segment.first < start))) = [segment] := by
    rw [List.dropWhile_cons, hfirst, decide_eq_false (by omega)]
    rfl
  have hfilter : (fillers ++ [farDraw, farUnknown]).filter (fun p => decide (start ≤ p.offset)) =
      fillers.filter (fun p => decide (start ≤ p.offset)) ++ [farDraw, farUnknown] := by
    have hfar : start ≤ farDraw.offset ∧ start ≤ farUnknown.offset := ⟨hstart, hstart⟩
    rw [List.filter_append, List.filter_cons_of_pos (by simpa using hfar.1),
      List.filter_cons_of_pos (by simpa using hfar.2), List.filter_nil]
  have hdraw : farDraw.isDraw = true := rfl
  have hunknown : farUnknown.Carried (afterFillers n) 0xFF := ⟨rfl, rfl, rfl⟩
  have hwork : farUnknown.work (afterFillers n) 0xFF = .done (.error .needsGpu, 0) := rfl
  obtain ⟨opcode, hstep⟩ := stepPacket_draw (afterFillers n) hdraw [segment] {}
  have hnext : nextIf [segment] farDraw.offset = (some segment, []) := by
    have hsame : (segment.first == farDraw.offset) = true := by
      rw [hfirst]
      rfl
    simp only [nextIf, hsame, if_true]
  have hfirstRun : (stepPacket (afterFillers n) farDraw [segment] {}).run drawing.answer () =
      (.carriedOut [] { counts := { draws := 1 } }, (), [⟨.runDraws segment, true⟩]) := by
    rw [hstep, hnext]
    rfl
  have hlastRun : ∀ result, ∃ result', result'.stopped.offset = some u32Max ∧
      (stepPacket (afterFillers n) farUnknown [] result).run drawing.answer () =
        (.stopped result', (), []) := by
    intro result
    rw [stepPacket_carried hunknown, hwork]
    exact ⟨_, rfl, rfl⟩
  obtain ⟨result', hstopped, hlast⟩ := hlastRun { counts := { draws := 1 } }
  have hboth : executeLoop drawing.answer (afterFillers n) [farDraw, farUnknown] [segment] {} () =
      (result', [⟨farDraw, [⟨.runDraws segment, true⟩], true⟩, ⟨farUnknown, [], false⟩]) := by
    simp only [executeLoop, hfirstRun, hlast]
  unfold executeFrom
  rw [ht, hpackets, hsegments, hkeep, hfilter]
  simp only [Bool.not_true, Bool.false_eq_true, if_false]
  rw [executeLoop_fillers _ _ (fun p hp => hkinds p (List.mem_of_mem_filter hp))]
  refine ⟨_, _, ?_, congrArg Prod.snd hboth⟩
  exact (congrArg (fun ran => ran.1.stopped.offset) hboth).trans hstopped

/-- The call that goes on draws again what was drawn: both packets past the fillers have the
largest offset. -/
theorem not_oneRun_afterFillers {n : Nat} (hfar : u32Max ≤ 4 * n) :
    (walk (afterFillers n)).isTrustworthy = true ∧
      ¬ OneRun (afterFillers n) (session (afterFillers n) [drawing, drawing] 0) := by
  obtain ⟨fillers, hkinds, hpackets, ht⟩ := walk_afterFillers hfar
  refine ⟨ht, fun hone => ?_⟩
  obtain ⟨turns, turns', hstop, hlog⟩ := executeFrom_afterFillers hfar (Nat.zero_le u32Max)
  obtain ⟨again, again', hstop', hlog'⟩ := executeFrom_afterFillers hfar (Nat.le_refl u32Max)
  have hcalls : (session (afterFillers n) [drawing, drawing] 0).flatMap Prod.snd =
      [⟨farDraw, turns, true⟩, ⟨farUnknown, turns', false⟩] ++ ⟨farDraw, again, true⟩ ::
        [⟨farUnknown, again', false⟩] := by
    simp only [session, hstop, hstop', List.flatMap_cons, List.flatMap_nil, hlog, hlog']
    rfl
  obtain ⟨later, hlater⟩ := hone.order _ _ _ hcalls
  have heffects : (walk (afterFillers n)).packets.filter (Packet.effective (afterFillers n)) =
      [farDraw, farUnknown] := by
    rw [hpackets, List.filter_append, List.filter_eq_nil_iff.mpr, List.nil_append]
    · rfl
    · intro p hp
      unfold Packet.effective Packet.opcode?
      rw [hkinds p hp]
      simp
  rw [heffects] at hlater
  have hsame : farUnknown = farDraw := (List.cons.inj (List.cons.inj hlater).2).1
  revert hsame
  decide

/-- A stream of more than four GiB whose walk is trusted and whose draw is drawn twice. -/
theorem far_draw_drawn_twice :
    (walk (afterFillers (2 ^ 30))).isTrustworthy = true ∧
      ¬ OneRun (afterFillers (2 ^ 30)) (session (afterFillers (2 ^ 30)) [drawing, drawing] 0) :=
  not_oneRun_afterFillers (by unfold u32Max; norm_num)

end Orbistoun.Gpu.Cp
