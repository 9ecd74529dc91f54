import Orbistoun.Gpu.Cp.Packet

/-! # Streams laid out packet behind packet

A stream that is walked without running over its end is its packets' bytes one behind
another, and packets put one behind another walk back to themselves, wherever they were
taken from.
-/

namespace Orbistoun.Gpu.Cp

def headerOf (piece : List Byte) : Nat := fromLeBytes (piece.take 4)

def kindOf (piece : List Byte) : PacketKind := (kindAndLength (headerOf piece)).1

/-- The bytes are one packet, nothing of it missing and nothing behind it. -/
def Whole (piece : List Byte) : Prop :=
  4 ≤ piece.length ∧ (kindAndLength (headerOf piece)).2 = piece.length

def Sound (piece : List Byte) : Prop := Whole piece ∧ kindOf piece ≠ .reserved

def packetsOf : Nat → List (List Byte) → List Packet
  | _, [] => []
  | offset, piece :: rest =>
      packetAt offset (headerOf piece) :: packetsOf (offset + piece.length) rest

def packetBytes (stream : List Byte) (p : Packet) : List Byte :=
  (getRange stream p.offset (p.offset + p.length)).getD []

theorem packetsOf_append (offset : Nat) (first rest : List (List Byte)) :
    packetsOf offset (first ++ rest) =
      packetsOf offset first ++ packetsOf (offset + first.flatten.length) rest := by
  induction first generalizing offset with
  | nil => rfl
  | cons piece first ih =>
      rw [List.cons_append, packetsOf, ih, packetsOf, List.flatten_cons, List.length_append,
        Nat.add_assoc]
      rfl

theorem map_kind_packetsOf (offset : Nat) (pieces : List (List Byte)) :
    (packetsOf offset pieces).map Packet.kind = pieces.map kindOf := by
  induction pieces generalizing offset with
  | nil => rfl
  | cons piece pieces ih =>
      rw [packetsOf, List.map_cons, List.map_cons, ih]
      rfl

theorem length_le_flatten {pieces : List (List Byte)} (h : ∀ piece ∈ pieces, Whole piece) :
    pieces.length ≤ pieces.flatten.length := by
  induction pieces with
  | nil => exact Nat.le_refl _
  | cons piece pieces ih =>
      have hpiece := (h piece List.mem_cons_self).1
      have hrest := ih (fun q hq => h q (List.mem_cons_of_mem _ hq))
      rw [List.length_cons, List.flatten_cons, List.length_append]
      omega

/-- A header says a whole number of words. -/
theorem four_dvd_length (header : Nat) : (kindAndLength header).2 % 4 = 0 := by
  unfold kindAndLength
  split <;> simp <;> omega

theorem flatten_length_mod {pieces : List (List Byte)} (h : ∀ piece ∈ pieces, Whole piece) :
    pieces.flatten.length % 4 = 0 := by
  induction pieces with
  | nil => rfl
  | cons piece pieces ih =>
      have hpiece := (h piece List.mem_cons_self).2
      have hfour := four_dvd_length (headerOf piece)
      have hrest := ih (fun q hq => h q (List.mem_cons_of_mem _ hq))
      rw [List.flatten_cons, List.length_append]
      omega

/-! ## Walking what was laid out -/

theorem walkLoop_whole {piece : List Byte} (h : Whole piece) (turns offset : Nat)
    (rest : List Byte) :
    walkLoop (turns + 1) offset (piece ++ rest) =
      (packetAt offset (headerOf piece) :: (walkLoop turns (offset + piece.length) rest).1,
        (walkLoop turns (offset + piece.length) rest).2) := by
  obtain ⟨hfour, hlength⟩ := h
  match piece, hfour, hlength with
  | a :: b :: c :: d :: tail, hfour, hlength =>
      have hheader : headerOf (a :: b :: c :: d :: tail) = fromLeBytes [a, b, c, d] := rfl
      have htaken : (packetAt offset (fromLeBytes [a, b, c, d])).length =
          (a :: b :: c :: d :: tail).length := hlength
      have happend : a :: b :: c :: d :: tail ++ rest = a :: b :: c :: d :: (tail ++ rest) := rfl
      rw [happend, walkLoop_succ]
      dsimp only
      rw [htaken, ← happend, if_neg (by rw [List.length_append]; omega), List.drop_left, hheader]

theorem walkLoop_pieces {pieces : List (List Byte)} (h : ∀ piece ∈ pieces, Whole piece)
    (turns offset : Nat) (tail : List Byte) :
    walkLoop (pieces.length + turns) offset (pieces.flatten ++ tail) =
      (packetsOf offset pieces ++ (walkLoop turns (offset + pieces.flatten.length) tail).1,
        (walkLoop turns (offset + pieces.flatten.length) tail).2) := by
  induction pieces generalizing offset with
  | nil => simp [packetsOf]
  | cons piece pieces ih =>
      have hturns : (piece :: pieces).length + turns = pieces.length + turns + 1 := by
        rw [List.length_cons]
        omega
      have hoffset : offset + piece.length + pieces.flatten.length =
          offset + (piece :: pieces).flatten.length := by
        rw [List.flatten_cons, List.length_append]
        omega
      rw [hturns, List.flatten_cons, List.append_assoc,
        walkLoop_whole (h piece List.mem_cons_self),
        ih (fun q hq => h q (List.mem_cons_of_mem _ hq)), hoffset, packetsOf]
      rfl

theorem walkLoop_succ_turns {turns offset : Nat} {rest : List Byte} (h : rest.length ≤ turns) :
    walkLoop (turns + 1) offset rest = walkLoop turns offset rest := by
  induction turns generalizing offset rest with
  | zero =>
      rw [List.length_eq_zero_iff.mp (Nat.le_zero.mp h)]
      rfl
  | succ turns ih =>
      match rest, h with
      | [], _ => rfl
      | [_], _ => rfl
      | [_, _], _ => rfl
      | [_, _, _], _ => rfl
      | a :: b :: c :: d :: tail, h =>
          have hfour := four_le_length offset (fromLeBytes [a, b, c, d])
          have hleft : ((a :: b :: c :: d :: tail).drop
              (packetAt offset (fromLeBytes [a, b, c, d])).length).length ≤ turns := by
            rw [List.length_drop]
            omega
          rw [walkLoop_succ, walkLoop_succ]
          dsimp only
          rw [ih hleft]

theorem walkLoop_turns {turns offset : Nat} {rest : List Byte} (h : rest.length ≤ turns) :
    walkLoop turns offset rest = walkLoop rest.length offset rest := by
  obtain ⟨more, rfl⟩ := Nat.exists_eq_add_of_le h
  induction more with
  | zero => rfl
  | succ more ih =>
      rw [← Nat.add_assoc, walkLoop_succ_turns (Nat.le_add_right _ _)]
      exact ih (Nat.le_add_right _ _)

theorem walkLoop_append {pieces : List (List Byte)} (h : ∀ piece ∈ pieces, Whole piece)
    (tail : List Byte) :
    walkLoop (pieces.flatten ++ tail).length 0 (pieces.flatten ++ tail) =
      (packetsOf 0 pieces ++ (walkLoop tail.length pieces.flatten.length tail).1,
        (walkLoop tail.length pieces.flatten.length tail).2) := by
  have hle := length_le_flatten h
  have hlength : (pieces.flatten ++ tail).length =
      pieces.length + (tail.length + (pieces.flatten.length - pieces.length)) := by
    rw [List.length_append]
    omega
  rw [hlength, walkLoop_pieces h, Nat.zero_add, walkLoop_turns (Nat.le_add_right _ _)]

/-- Whether the walk runs over the end does not depend on where it starts counting. -/
theorem walkLoop_overran (turns offset offset' : Nat) (rest : List Byte) :
    (walkLoop turns offset rest).2 = (walkLoop turns offset' rest).2 := by
  induction turns generalizing offset offset' rest with
  | zero => simp [walkLoop]
  | succ turns ih =>
      rcases rest with _ | ⟨a, _ | ⟨b, _ | ⟨c, _ | ⟨d, tail⟩⟩⟩⟩
      · rfl
      · rfl
      · rfl
      · rfl
      · have hlength : (packetAt offset (fromLeBytes [a, b, c, d])).length =
            (packetAt offset' (fromLeBytes [a, b, c, d])).length := rfl
        rw [walkLoop_succ, walkLoop_succ]
        dsimp only
        rw [hlength]
        split
        · rfl
        · exact ih _ _ _

theorem walk_packets_append {pieces : List (List Byte)} (h : ∀ piece ∈ pieces, Whole piece)
    (tail : List Byte) :
    ∃ more, (walk (pieces.flatten ++ tail)).packets = packetsOf 0 pieces ++ more :=
  ⟨_, congrArg Prod.fst (walkLoop_append h tail)⟩

theorem walk_packets_flatten {pieces : List (List Byte)} (h : ∀ piece ∈ pieces, Whole piece) :
    (walk pieces.flatten).packets = packetsOf 0 pieces := by
  have hloop := congrArg Prod.fst (walkLoop_append h [])
  rw [List.append_nil] at hloop
  exact hloop.trans (List.append_nil _)

theorem walk_trusted {pieces : List (List Byte)} (h : ∀ piece ∈ pieces, Sound piece) :
    (walk pieces.flatten).isTrustworthy = true := by
  have hwhole : ∀ piece ∈ pieces, Whole piece := fun piece hp => (h piece hp).1
  have hover : (walk pieces.flatten).overran = false := by
    have hloop := congrArg Prod.snd (walkLoop_append hwhole [])
    rw [List.append_nil] at hloop
    exact hloop
  have hkinds : (walk pieces.flatten).desynchronised = false := by
    show (walk pieces.flatten).packets.any (fun p => p.kind == .reserved) = false
    rw [walk_packets_flatten hwhole, List.any_eq_false]
    intro p hp
    have hkind : p.kind ∈ pieces.map kindOf := by
      rw [← map_kind_packetsOf 0 pieces]
      exact List.mem_map_of_mem hp
    obtain ⟨piece, hpiece, hkind⟩ := List.mem_map.mp hkind
    rw [← hkind]
    simpa using (h piece hpiece).2
  have htrailing : (walk pieces.flatten).trailingBytes = 0 := flatten_length_mod hwhole
  simp [PacketWalk.isTrustworthy, hover, hkinds, htrailing]

/-- A stream with a reserved packet somewhere is not trusted. -/
theorem walk_reserved {pieces : List (List Byte)} (h : ∀ piece ∈ pieces, Whole piece)
    (hreserved : ∃ piece ∈ pieces, kindOf piece = .reserved) (tail : List Byte) :
    (walk (pieces.flatten ++ tail)).isTrustworthy = false := by
  obtain ⟨piece, hpiece, hkind⟩ := hreserved
  have hmem : PacketKind.reserved ∈ (packetsOf 0 pieces).map Packet.kind := by
    rw [map_kind_packetsOf, ← hkind]
    exact List.mem_map_of_mem hpiece
  obtain ⟨p, hp, hp'⟩ := List.mem_map.mp hmem
  obtain ⟨more, hmore⟩ := walk_packets_append h tail
  by_contra htrust
  exact not_reserved (by simpa using htrust)
    (hmore ▸ List.mem_append_left more hp) hp'

/-- Whole packets and something that runs over its end behind them are not trusted. -/
theorem walk_overran {pieces : List (List Byte)} (h : ∀ piece ∈ pieces, Whole piece)
    {tail : List Byte} (hover : (walk tail).overran = true) :
    (walk (pieces.flatten ++ tail)).isTrustworthy = false := by
  have hloop : (walk (pieces.flatten ++ tail)).overran = true := by
    refine (congrArg Prod.snd (walkLoop_append h tail)).trans ?_
    rw [walkLoop_overran _ _ 0]
    exact hover
  simp [PacketWalk.isTrustworthy, hloop]

/-! ## Taking a stream apart -/

theorem exists_pieces_loop {turns offset : Nat} {rest : List Byte} {packets : List Packet}
    (hturns : rest.length ≤ turns) (hmod : rest.length % 4 = 0)
    (h : walkLoop turns offset rest = (packets, false)) :
    ∃ pieces : List (List Byte), (∀ piece ∈ pieces, Whole piece) ∧ rest = pieces.flatten ∧
      packets = packetsOf offset pieces := by
  induction turns generalizing offset rest packets with
  | zero =>
      have hnil := List.length_eq_zero_iff.mp (Nat.le_zero.mp hturns)
      subst hnil
      cases h
      exact ⟨[], by simp, rfl, rfl⟩
  | succ turns ih =>
      match rest, hturns, hmod, h with
      | [], _, _, h =>
          cases h
          exact ⟨[], by simp, rfl, rfl⟩
      | a :: b :: c :: d :: tail, hturns, hmod, h =>
          rw [walkLoop_succ] at h
          dsimp only at h
          have hfour := four_le_length offset (fromLeBytes [a, b, c, d])
          have hword : (packetAt offset (fromLeBytes [a, b, c, d])).length % 4 = 0 :=
            four_dvd_length _
          generalize hp : packetAt offset (fromLeBytes [a, b, c, d]) = p at h hfour hword
          have hheader : fromLeBytes [a, b, c, d] = headerOf (a :: b :: c :: d :: tail) := rfl
          generalize a :: b :: c :: d :: tail = rest at h hheader hturns hmod ⊢
          split at h
          · cases h
          · next hlong =>
            have hlength := List.length_drop (i := p.length) (l := rest)
            cases hloop : walkLoop turns (offset + p.length) (rest.drop p.length) with
            | mk packets' overran =>
                rw [hloop] at h
                cases h
                obtain ⟨pieces, hwhole, hrest, hpackets⟩ := ih (by omega) (by omega) hloop
                have htaken : (rest.take p.length).length = p.length := by
                  rw [List.length_take]
                  omega
                have hhead : headerOf (rest.take p.length) = headerOf rest := by
                  unfold headerOf
                  rw [List.take_take, Nat.min_eq_left hfour]
                refine ⟨rest.take p.length :: pieces, ?_, ?_, ?_⟩
                · intro piece hpiece
                  rcases List.mem_cons.mp hpiece with rfl | hpiece
                  · refine ⟨by omega, ?_⟩
                    rw [htaken, hhead, ← hheader, ← hp]
                    rfl
                  · exact hwhole piece hpiece
                · rw [List.flatten_cons, ← hrest, List.take_append_drop]
                · rw [packetsOf, hhead, ← hheader, hp, htaken, hpackets]

theorem exists_pieces {stream : List Byte} (hmod : stream.length % 4 = 0)
    (hover : (walk stream).overran = false) :
    ∃ pieces : List (List Byte), (∀ piece ∈ pieces, Whole piece) ∧ stream = pieces.flatten ∧
      (walk stream).packets = packetsOf 0 pieces :=
  exists_pieces_loop (Nat.le_refl _) hmod (Prod.ext rfl hover)

theorem exists_sound_pieces {stream : List Byte} (ht : (walk stream).isTrustworthy = true) :
    ∃ pieces : List (List Byte), (∀ piece ∈ pieces, Sound piece) ∧ stream = pieces.flatten ∧
      (walk stream).packets = packetsOf 0 pieces := by
  have hparts := ht
  simp only [PacketWalk.isTrustworthy, Bool.and_eq_true, Bool.not_eq_true', beq_iff_eq] at hparts
  obtain ⟨pieces, hwhole, hstream, hpackets⟩ := exists_pieces hparts.2 hparts.1.2
  refine ⟨pieces, fun piece hpiece => ⟨hwhole piece hpiece, fun hkind => ?_⟩, hstream, hpackets⟩
  have hbad := walk_reserved hwhole ⟨piece, hpiece, hkind⟩ []
  rw [List.append_nil, ← hstream, ht] at hbad
  cases hbad

theorem packetBytes_at {stream before piece after : List Byte}
    (hstream : stream = before ++ piece ++ after) (hfit : before.length ≤ u32Max)
    (hwhole : Whole piece) :
    packetBytes stream (packetAt before.length (headerOf piece)) = piece := by
  have hoffset : (packetAt before.length (headerOf piece)).offset = before.length :=
    Nat.min_eq_left hfit
  have hlength : (packetAt before.length (headerOf piece)).length = piece.length := hwhole.2
  unfold packetBytes getRange
  rw [hoffset, hlength, hstream, if_pos (by simp), Option.getD_some, List.append_assoc,
    List.drop_left, Nat.add_sub_cancel_left, List.take_left]

theorem map_packetBytes {stream before after : List Byte} {pieces : List (List Byte)}
    (hstream : stream = before ++ pieces.flatten ++ after) (hfit : stream.length ≤ u32Max)
    (hwhole : ∀ piece ∈ pieces, Whole piece) :
    (packetsOf before.length pieces).map (packetBytes stream) = pieces := by
  induction pieces generalizing before with
  | nil => rfl
  | cons piece pieces ih =>
      have hhere : stream = before ++ piece ++ (pieces.flatten ++ after) := by
        rw [hstream, List.flatten_cons]
        simp
      have hnext : stream = (before ++ piece) ++ pieces.flatten ++ after := by
        rw [hhere, List.append_assoc (before ++ piece)]
      have hbefore : before.length ≤ u32Max := by
        rw [hhere, List.length_append, List.length_append] at hfit
        omega
      rw [packetsOf, List.map_cons, packetBytes_at hhere hbefore (hwhole piece List.mem_cons_self),
        ← List.length_append, ih hnext (fun q hq => hwhole q (List.mem_cons_of_mem _ hq))]

end Orbistoun.Gpu.Cp
