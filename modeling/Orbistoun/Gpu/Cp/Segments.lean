import Orbistoun.Gpu.Cp.Basic
import Orbistoun.Lib.Runs

/-! # The draw segments of a stream

The scan for segments finds the runs of the stream's draws: from a draw to the last one
before the next packet with an effect. A segment is marked whole from a second scan, over
the opcodes.
-/

namespace Orbistoun.Gpu.Cp

open Lib.Runs

def Packet.isDraw (p : Packet) : Bool := p.opcode?.any Cp.isDraw

def Packet.hasEffect (p : Packet) : Bool :=
  p.opcode?.any (fun opcode => !Cp.isDraw opcode && !isMemoryInert opcode (p.bodyLength / 4))

/-- Where a draw's packet ends, as a segment keeps it. -/
def Packet.endAt (p : Packet) : Nat := (p.bodyOffset + p.bodyLength) % (u32Max + 1)

def runSegment (stream : List Byte) (run : List Packet) : DrawSegment where
  stream := stream
  first := (run.head?.map Packet.offset).getD 0
  endAt := (run.getLast?.map Packet.endAt).getD 0
  whole := false

abbrev Divides := Division Packet.isDraw Packet.hasEffect

structure Found (stream : List Byte) (seen : List Packet) (scan : SegmentScan) : Prop where
  runs : ∃ parts tail, Divides seen parts tail ∧
    scan.segments = parts.map (fun part => runSegment stream part.2) ∧
    (scan.isOpen = true → parts ≠ [] ∧ ∀ p ∈ tail, p.hasEffect = false) ∧
    (scan.isOpen = false → parts ≠ [] → ∃ p ∈ tail, p.hasEffect = true)

variable {stream : List Byte}

theorem not_hasEffect_of_isDraw {p : Packet} (h : p.isDraw = true) : p.hasEffect = false := by
  unfold Packet.isDraw at h
  unfold Packet.hasEffect
  cases hop : p.opcode? with
  | none => rfl
  | some opcode =>
      rw [hop] at h
      simp only [Option.any_some] at h ⊢
      simp [h]

theorem found_start : Found stream [] ⟨[], false⟩ :=
  ⟨[], [], division_nil, rfl, by simp, by simp⟩

theorem scanPacket_of_not_isDraw {p : Packet} (h : p.isDraw = false) (scan : SegmentScan) :
    scanPacket stream scan p =
      if p.hasEffect then { scan with isOpen := false } else scan := by
  unfold Packet.isDraw at h
  unfold scanPacket Packet.hasEffect
  unfold Packet.opcode? at h ⊢
  cases hkind : p.kind with
  | command opcode =>
      rw [hkind] at h
      simp only [Option.any_some] at h
      simp only [Option.any_some, h, Bool.not_false, Bool.true_and, Bool.false_eq_true, if_false]
      cases isMemoryInert opcode (p.bodyLength / 4) <;> rfl
  | registerWrite base => rfl
  | filler => rfl
  | reserved => rfl

theorem scanPacket_of_isDraw {p : Packet} (h : p.isDraw = true) (scan : SegmentScan) :
    scanPacket stream scan p =
      match scan.isOpen, scan.segments.getLast? with
      | true, some segment =>
          { segments := scan.segments.dropLast ++ [{ segment with endAt := p.endAt }], isOpen := true }
      | _, _ =>
          { segments := scan.segments ++ [{ stream, first := p.offset, endAt := p.endAt, whole := false }]
            isOpen := true } := by
  unfold Packet.isDraw Packet.opcode? at h
  unfold scanPacket
  cases hkind : p.kind with
  | command opcode =>
      rw [hkind] at h
      simp only [Option.any_some] at h
      simp only [h, if_true]
      rfl
  | registerWrite base =>
      rw [hkind] at h
      cases h
  | filler =>
      rw [hkind] at h
      cases h
  | reserved =>
      rw [hkind] at h
      cases h

theorem Found.scanPacket {seen : List Packet} {scan : SegmentScan} (h : Found stream seen scan)
    (p : Packet) : Found stream (seen ++ [p]) (scanPacket stream scan p) := by
  obtain ⟨parts, tail, hdiv, hsegments, hopen, hclosed⟩ := h
  cases hdraw : p.isDraw with
  | false =>
      rw [scanPacket_of_not_isDraw hdraw]
      refine ⟨parts, tail ++ [p], hdiv.skip hdraw, ?_, ?_, ?_⟩
      · split <;> exact hsegments
      · intro ho
        split at ho
        · cases ho
        · next heffect =>
          refine ⟨(hopen ho).1, fun q hq => ?_⟩
          rcases List.mem_append.mp hq with hq | hq
          · exact (hopen ho).2 q hq
          · rw [List.mem_singleton.mp hq]
            simpa using heffect
      · intro ho hne
        split at ho
        · next heffect => exact ⟨p, by simp, heffect⟩
        · obtain ⟨q, hq, heffect⟩ := hclosed ho hne
          exact ⟨q, List.mem_append_left _ hq, heffect⟩
  | true =>
      have heffect := not_hasEffect_of_isDraw hdraw
      rw [scanPacket_of_isDraw hdraw]
      cases ho : scan.isOpen with
      | true =>
          obtain ⟨hne, huncut⟩ := hopen ho
          obtain ⟨others, part, rfl⟩ : ∃ others part, parts = others ++ [part] :=
            ⟨parts.dropLast, parts.getLast hne, (List.dropLast_append_getLast hne).symm⟩
          obtain ⟨gap, run⟩ := part
          rw [hsegments, List.map_append, List.map_singleton, List.getLast?_concat,
            List.dropLast_concat]
          refine ⟨_, [], hdiv.extend huncut hdraw heffect, ?_, by simp, by simp⟩
          rw [List.map_append, List.map_singleton]
          obtain ⟨first, hfirst, -⟩ := (hdiv.runs (gap, run) (by simp)).first
          simp [runSegment, hfirst]
      | false =>
          refine ⟨_, [], hdiv.start hdraw heffect (hclosed ho), ?_, by simp, by simp⟩
          rw [List.map_append, ← hsegments]
          rfl

theorem found_scan (packets : List Packet) :
    Found stream packets (packets.foldl (scanPacket stream) ⟨[], false⟩) := by
  induction packets using List.reverseRecOn with
  | nil => exact found_start
  | append_singleton seen p ih =>
      rw [List.foldl_append]
      exact ih.scanPacket p

theorem drawSegments_spec (stream : List Byte) (packets : List Packet) :
    ∃ parts tail, Divides packets parts tail ∧
      ((∃ part, parts = [part] ∧ drawSegments stream packets =
        [{ runSegment stream part.2 with whole := !packets.any isOwnGpuWork }]) ∨
      (∀ part, parts ≠ [part]) ∧
        drawSegments stream packets = parts.map (fun part => runSegment stream part.2)) := by
  obtain ⟨parts, tail, hdiv, hsegments, -, -⟩ := (found_scan packets : Found stream packets _)
  refine ⟨parts, tail, hdiv, ?_⟩
  unfold drawSegments
  rw [hsegments]
  match parts with
  | [] => exact .inr ⟨by simp, rfl⟩
  | [part] => exact .inl ⟨part, rfl, rfl⟩
  | _ :: _ :: _ => exact .inr ⟨by simp, rfl⟩

/-! ## Where the segments lie -/

theorem head_le_getLast {run : List Packet} {p q : Packet}
    (h : run.Pairwise (fun p q => p.offset + p.length ≤ q.offset ∧ p.offset < q.offset))
    (hp : run.head? = some p) (hq : run.getLast? = some q) : p.offset ≤ q.offset := by
  cases run with
  | nil => cases hp
  | cons first rest =>
      cases hp
      rcases List.mem_cons.mp (List.mem_of_mem_getLast? hq) with rfl | hmem
      · exact Nat.le_refl _
      · exact Nat.le_of_lt (List.rel_of_pairwise_cons h hmem).2

theorem endAt_eq (hfit : stream.length ≤ u32Max) (ht : (walk stream).isTrustworthy = true)
    {p : Packet} (hp : p ∈ (walk stream).packets) :
    p.endAt = p.offset + p.length ∧ p.offset < p.endAt := by
  have hchain := walk_chained hfit ht
  have hfour := hchain.four_le hp
  obtain ⟨-, hend⟩ := hchain.mem hp
  have hendAt : p.endAt = p.offset + p.length := by
    unfold Packet.endAt Packet.bodyOffset Packet.bodyLength
    unfold u32Max at hfit ⊢
    omega
  omega

/-- In a stream whose offsets fit, the segments' bytes lie one behind another. -/
theorem drawSegments_ordered (hfit : stream.length ≤ u32Max)
    (ht : (walk stream).isTrustworthy = true) :
    (drawSegments stream (walk stream).packets).Pairwise (fun s t => s.endAt ≤ t.first) ∧
      ∀ s ∈ drawSegments stream (walk stream).packets, s.first < s.endAt := by
  obtain ⟨parts, tail, hdiv, hsegments⟩ := drawSegments_spec stream (walk stream).packets
  have hsorted := (walk_chained hfit ht).sorted
  have hin : ∀ part ∈ parts, ∀ p ∈ part.2, p ∈ (walk stream).packets := by
    intro part hpart p hp
    rw [hdiv.whole]
    exact List.mem_append_left _ (List.mem_flatMap.mpr ⟨part, hpart, List.mem_append_right _ hp⟩)
  rw [hdiv.whole, List.pairwise_append, List.pairwise_flatMap] at hsorted
  obtain ⟨⟨hinner, hacross⟩, -, -⟩ := hsorted
  have hbounds : ∀ part ∈ parts, ∃ p ∈ part.2, ∃ q ∈ part.2,
      (runSegment stream part.2).first = p.offset ∧ (runSegment stream part.2).endAt = q.endAt ∧
      p.offset ≤ q.offset := by
    intro part hpart
    obtain ⟨p, hp, -⟩ := (hdiv.runs part hpart).first
    obtain ⟨q, hq, -⟩ := (hdiv.runs part hpart).last
    exact ⟨p, List.mem_of_mem_head? hp, q, List.mem_of_mem_getLast? hq, by simp [runSegment, hp],
      by simp [runSegment, hq], head_le_getLast (List.pairwise_append.mp (hinner part hpart)).2.1 hp hq⟩
  have hproper : ∀ part ∈ parts, (runSegment stream part.2).first < (runSegment stream part.2).endAt := by
    intro part hpart
    obtain ⟨p, -, q, hq, hfirst, hend, hle⟩ := hbounds part hpart
    have := (endAt_eq hfit ht (hin part hpart q hq)).2
    omega
  have hapart : (parts.map (fun part => runSegment stream part.2)).Pairwise
      (fun s t => s.endAt ≤ t.first) := by
    rw [List.pairwise_map]
    refine hacross.imp_of_mem (fun {part next} hpart hnext hrel => ?_)
    obtain ⟨-, -, q, hq, -, hend, -⟩ := hbounds part hpart
    obtain ⟨p, hp, -, -, hfirst, -, -⟩ := hbounds next hnext
    have hle := (hrel q (List.mem_append_right _ hq) p (List.mem_append_right _ hp)).1
    have hq' := (endAt_eq hfit ht (hin part hpart q hq)).1
    show (runSegment stream part.2).endAt ≤ (runSegment stream next.2).first
    omega
  rcases hsegments with ⟨part, rfl, hone⟩ | ⟨-, hmany⟩
  · rw [hone]
    refine ⟨List.pairwise_singleton _ _, fun s hs => ?_⟩
    rw [List.mem_singleton.mp hs]
    exact hproper part (by simp)
  · rw [hmany]
    refine ⟨hapart, fun s hs => ?_⟩
    obtain ⟨part, hpart, rfl⟩ := List.mem_map.mp hs
    exact hproper part hpart

/-! ## Whole segments -/

/-- GPU work other than the draws of a segment: a dispatch of either form, or an indirect
draw. -/
def Packet.isGpuWork (p : Packet) : Bool :=
  p.opcode?.any (fun opcode =>
    opcode == DISPATCH_DIRECT || opcode == DISPATCH_INDIRECT || isIndirectDraw opcode)

/-- What the segments of a stream are for: the runs of its draws, in order, each draw in one;
and a whole one is all the stream's GPU work. -/
structure SegmentsHold (stream : List Byte) : Prop where
  runs : ∃ parts tail, Divides (walk stream).packets parts tail ∧
    (drawSegments stream (walk stream).packets).map (fun s => (s.first, s.endAt)) =
      parts.map (fun part => ((runSegment stream part.2).first, (runSegment stream part.2).endAt))
  ordered : (walk stream).isTrustworthy = true → stream.length ≤ u32Max →
    (drawSegments stream (walk stream).packets).Pairwise (fun s t => s.endAt ≤ t.first) ∧
      ∀ s ∈ drawSegments stream (walk stream).packets, s.first < s.endAt
  whole : ∀ segment ∈ drawSegments stream (walk stream).packets, segment.whole = true →
    (∃ before run after, (walk stream).packets = before ++ run ++ after ∧
      segment = { runSegment stream run with whole := true } ∧
      ∀ p ∈ before ++ after, p.isDraw = false) ∧
    ¬ Parted Packet.isDraw Packet.hasEffect (walk stream).packets ∧
    ∀ p ∈ (walk stream).packets, p.isGpuWork = false
  carried : carriedOutWhole stream = true →
    ∃ segment, drawSegments stream (walk stream).packets = [segment] ∧ segment.whole = true

/-- The streams whose one segment is marked whole beside an indirect dispatch. -/
structure DispatchOverlooked (stream : List Byte) : Prop where
  drawn : ∃ p ∈ (walk stream).packets, p.isDraw = true
  together : ¬ Parted Packet.isDraw Packet.hasEffect (walk stream).packets
  nothingElse : ∀ p ∈ (walk stream).packets, isOwnGpuWork p = false
  dispatched : ∃ p ∈ (walk stream).packets, p.kind = .command DISPATCH_INDIRECT

theorem isGpuWork_eq (p : Packet) :
    p.isGpuWork = (isOwnGpuWork p || decide (p.kind = .command DISPATCH_INDIRECT)) := by
  unfold Packet.isGpuWork isOwnGpuWork Packet.opcode?
  cases hkind : p.kind with
  | command opcode =>
      simp only [Option.any_some, PacketKind.command.injEq]
      cases opcode == DISPATCH_DIRECT <;> cases isIndirectDraw opcode <;>
        simp [beq_eq_decide]
  | registerWrite base => simp
  | filler => simp
  | reserved => simp

theorem whole_segment {segment : DrawSegment}
    (hmem : segment ∈ drawSegments stream (walk stream).packets) (hwhole : segment.whole = true) :
    ∃ part tail, Divides (walk stream).packets [part] tail ∧
      segment = { runSegment stream part.2 with whole := true } ∧
      ∀ p ∈ (walk stream).packets, isOwnGpuWork p = false := by
  obtain ⟨parts, tail, hdiv, ⟨part, rfl, hone⟩ | ⟨-, hmany⟩⟩ :=
    drawSegments_spec stream (walk stream).packets
  · rw [hone, List.mem_singleton] at hmem
    subst hmem
    refine ⟨part, tail, hdiv, by rw [show (!(walk stream).packets.any isOwnGpuWork) = true from hwhole],
      fun p hp => ?_⟩
    simp only [Bool.not_eq_true', List.any_eq_false, Bool.not_eq_true] at hwhole
    exact hwhole p hp
  · rw [hmany, List.mem_map] at hmem
    obtain ⟨part, -, rfl⟩ := hmem
    cases hwhole

theorem segments_are_runs (stream : List Byte) :
    ∃ parts tail, Divides (walk stream).packets parts tail ∧
      (drawSegments stream (walk stream).packets).map (fun s => (s.first, s.endAt)) =
        parts.map (fun part => ((runSegment stream part.2).first, (runSegment stream part.2).endAt)) := by
  obtain ⟨parts, tail, hdiv, ⟨part, rfl, hone⟩ | ⟨-, hmany⟩⟩ :=
    drawSegments_spec stream (walk stream).packets
  · exact ⟨[part], tail, hdiv, by rw [hone]; rfl⟩
  · exact ⟨parts, tail, hdiv, by rw [hmany, List.map_map]; rfl⟩

theorem carriedOutWhole_spec (h : carriedOutWhole stream = true) :
    ∃ segment, drawSegments stream (walk stream).packets = [segment] ∧ segment.whole = true := by
  unfold carriedOutWhole at h
  rw [Bool.and_eq_true] at h
  obtain ⟨-, h⟩ := h
  split at h
  · next only honly => exact ⟨only, honly, h⟩
  · cases h

theorem DispatchOverlooked.marked (h : DispatchOverlooked stream) :
    ∃ segment ∈ drawSegments stream (walk stream).packets, segment.whole = true := by
  obtain ⟨parts, tail, hdiv, hsegments⟩ := drawSegments_spec stream (walk stream).packets
  obtain ⟨part, rfl⟩ := hdiv.one_run h.drawn h.together
  obtain ⟨part', hpart, hone⟩ | ⟨hmany, -⟩ := hsegments
  · rw [hone]
    refine ⟨_, List.mem_singleton.mpr rfl, ?_⟩
    simp only [Bool.not_eq_true', List.any_eq_false, Bool.not_eq_true]
    exact h.nothingElse
  · exact absurd rfl (hmany part)

/-- The segments are what they are for exactly where no indirect dispatch is overlooked: a
segment is marked whole from a scan that looks for direct dispatches and indirect draws. -/
theorem segments_hold_iff (stream : List Byte) :
    SegmentsHold stream ↔ ¬ DispatchOverlooked stream := by
  constructor
  · intro hold hover
    obtain ⟨segment, hmem, hwhole⟩ := hover.marked
    obtain ⟨p, hp, hkind⟩ := hover.dispatched
    have hwork := (hold.whole segment hmem hwhole).2.2 p hp
    rw [isGpuWork_eq, hkind] at hwork
    simp at hwork
  · intro hover
    refine ⟨segments_are_runs stream, fun ht hfit => drawSegments_ordered hfit ht,
      fun segment hmem hwhole => ?_, carriedOutWhole_spec⟩
    obtain ⟨part, tail, hdiv, hsegment, hown⟩ := whole_segment hmem hwhole
    obtain ⟨hpackets, hunmarked⟩ := hdiv.marked_in_run
    refine ⟨⟨part.1, part.2, tail, hpackets, hsegment, hunmarked⟩, hdiv.not_parted, fun p hp => ?_⟩
    rw [isGpuWork_eq, hown p hp, Bool.false_or, decide_eq_false_iff_not]
    intro hkind
    obtain ⟨q, hq, hdraw⟩ := (hdiv.runs part (by simp)).mark_mem
    exact hover ⟨⟨q, by rw [hpackets]; simp [hq], hdraw⟩, hdiv.not_parted, hown, p, hp, hkind⟩

def indirectDispatchThenDraw : List Byte :=
  [commandHeader DISPATCH_INDIRECT 3, 0x1000, 0, 1, commandHeader DRAW_INDEX_AUTO 2, 3, 2].flatMap
    (toLeBytes 4)

/-- The stream dispatches, and its one segment is marked whole and carried out so. -/
theorem indirect_dispatch_overlooked :
    carriedOutWhole indirectDispatchThenDraw = true ∧ ¬ SegmentsHold indirectDispatchThenDraw := by
  refine ⟨by decide, fun hold => ?_⟩
  have hmem : { runSegment indirectDispatchThenDraw [packetAt 16 (commandHeader DRAW_INDEX_AUTO 2)] with
      whole := true } ∈ drawSegments indirectDispatchThenDraw (walk indirectDispatchThenDraw).packets := by
    decide
  have hwork := (hold.whole _ hmem rfl).2.2 (packetAt 0 (commandHeader DISPATCH_INDIRECT 3)) (by decide)
  revert hwork
  decide

end Orbistoun.Gpu.Cp
