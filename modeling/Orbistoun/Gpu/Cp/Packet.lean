import Mathlib.Tactic

/-! # Walking a submitted command buffer into packets

Each packet header says what kind it is and how many dwords follow, so a stream is walked
without understanding any command. Offsets and lengths are 32-bit, as the source keeps
them: past the first four GiB of a stream every packet's offset is the largest one.
-/

namespace Orbistoun.Gpu.Cp

abbrev Byte := UInt8

/-- The little-endian value of bytes. -/
def fromLeBytes : List Byte → Nat
  | [] => 0
  | b :: rest => b.toNat + 256 * fromLeBytes rest

def toLeBytes : Nat → Nat → List Byte
  | 0, _ => []
  | n + 1, value => UInt8.ofNat value :: toLeBytes n (value / 256)

/-- The words of bytes, what is left over after the last whole one dropped. -/
def wordsOf : List Byte → List Nat
  | a :: b :: c :: d :: rest => fromLeBytes [a, b, c, d] :: wordsOf rest
  | _ => []

/-- The bytes from one index up to another, where both are inside. -/
def getRange (bytes : List Byte) (start stop : Nat) : Option (List Byte) :=
  if start ≤ stop ∧ stop ≤ bytes.length then some ((bytes.drop start).take (stop - start)) else none

inductive PacketKind where
  | registerWrite (baseRegister : Nat)
  | filler
  | command (opcode : Nat)
  | reserved
  deriving DecidableEq, Repr

structure Packet where
  offset : Nat
  length : Nat
  header : Nat
  kind : PacketKind
  deriving DecidableEq, Repr

/-- `u32::MAX`. -/
def u32Max : Nat := 0xFFFFFFFF

def Packet.bodyOffset (p : Packet) : Nat := (p.offset + 4) % (u32Max + 1)

def Packet.bodyLength (p : Packet) : Nat := p.length - 4

def Packet.opcode? (p : Packet) : Option Nat :=
  match p.kind with
  | .command opcode => some opcode
  | _ => none

structure PacketWalk where
  packets : List Packet
  desynchronised : Bool
  overran : Bool
  trailingBytes : Nat

def PacketWalk.isTrustworthy (w : PacketWalk) : Bool :=
  !w.desynchronised && !w.overran && w.trailingBytes == 0

/-- The count field holds one less than the number of body dwords; all ones is a header
alone. -/
def bodyDwords (header : Nat) : Nat :=
  let count := (header >>> 16) &&& 0x3FFF
  if count = 0x3FFF then 0 else count + 1

def kindAndLength (header : Nat) : PacketKind × Nat :=
  match (header >>> 30) &&& 3 with
  | 0 => (.registerWrite (header &&& 0xFFFF), 4 + bodyDwords header * 4)
  | 2 => (.filler, 4)
  | 3 => (.command ((header >>> 8) &&& 0xFF), 4 + bodyDwords header * 4)
  | _ => (.reserved, 4)

def packetAt (offset header : Nat) : Packet where
  offset := min offset u32Max
  length := (kindAndLength header).2
  header := header
  kind := (kindAndLength header).1

/-- The loop of `walk` from an offset on, over the bytes that are left there; a packet takes
four bytes or more, so there are no more turns than bytes. -/
def walkLoop : Nat → Nat → List Byte → List Packet × Bool
  | turns + 1, offset, rest@(a :: b :: c :: d :: _) =>
      let p := packetAt offset (fromLeBytes [a, b, c, d])
      if rest.length < p.length then ([p], true)
      else
        let (packets, overran) := walkLoop turns (offset + p.length) (rest.drop p.length)
        (p :: packets, overran)
  | _, _, _ => ([], false)

def walk (bytes : List Byte) : PacketWalk :=
  let (packets, overran) := walkLoop bytes.length 0 bytes
  { packets
    desynchronised := packets.any (fun p => p.kind == .reserved)
    overran
    trailingBytes := bytes.length % 4 }

/-! ## Where the packets of a walk lie -/

theorem four_le_length (offset header : Nat) : 4 ≤ (packetAt offset header).length := by
  unfold packetAt kindAndLength
  dsimp only
  split <;> simp

theorem walkLoop_succ (turns offset : Nat) (a b c d : Byte) (tail : List Byte) :
    walkLoop (turns + 1) offset (a :: b :: c :: d :: tail) =
      (let p := packetAt offset (fromLeBytes [a, b, c, d])
      if (a :: b :: c :: d :: tail).length < p.length then ([p], true)
      else
        (p :: (walkLoop turns (offset + p.length) ((a :: b :: c :: d :: tail).drop p.length)).1,
          (walkLoop turns (offset + p.length) ((a :: b :: c :: d :: tail).drop p.length)).2)) := by
  rw [walkLoop]

/-- The packets lie one behind another from an offset up to an end. -/
def Chained : Nat → Nat → List Packet → Prop
  | start, stop, [] => start ≤ stop
  | start, stop, p :: rest => p.offset = start ∧ 4 ≤ p.length ∧ Chained (start + p.length) stop rest

theorem Chained.le {start stop : Nat} {packets : List Packet} (h : Chained start stop packets) :
    start ≤ stop := by
  induction packets generalizing start with
  | nil => exact h
  | cons p packets ih =>
      have := ih h.2.2
      omega

theorem Chained.four_le {start stop : Nat} {packets : List Packet}
    (h : Chained start stop packets) {p : Packet} (hp : p ∈ packets) : 4 ≤ p.length := by
  induction packets generalizing start with
  | nil => cases hp
  | cons q packets ih =>
      rcases List.mem_cons.mp hp with rfl | hp
      · exact h.2.1
      · exact ih h.2.2 hp

theorem Chained.mem {start stop : Nat} {packets : List Packet} (h : Chained start stop packets)
    {p : Packet} (hp : p ∈ packets) : start ≤ p.offset ∧ p.offset + p.length ≤ stop := by
  induction packets generalizing start with
  | nil => cases hp
  | cons q packets ih =>
      obtain ⟨hoffset, hlength, hrest⟩ := h
      rcases List.mem_cons.mp hp with rfl | hp
      · have := hrest.le
        omega
      · have := ih hrest hp
        omega

theorem Chained.sorted {start stop : Nat} {packets : List Packet} (h : Chained start stop packets) :
    packets.Pairwise (fun p q => p.offset + p.length ≤ q.offset ∧ p.offset < q.offset) := by
  induction packets generalizing start with
  | nil => exact List.Pairwise.nil
  | cons p packets ih =>
      obtain ⟨hoffset, hlength, hrest⟩ := h
      refine List.Pairwise.cons (fun q hq => ?_) (ih hrest)
      have := (hrest.mem hq).1
      omega

theorem walkLoop_chained {turns offset : Nat} {rest : List Byte} {packets : List Packet}
    (hfit : offset + rest.length ≤ u32Max) (h : walkLoop turns offset rest = (packets, false)) :
    Chained offset (offset + rest.length) packets := by
  induction turns generalizing offset rest packets with
  | zero =>
      rw [walkLoop] at h
      cases h
      exact Nat.le_add_right _ _
      simp
  | succ turns ih =>
      match rest, h with
      | a :: b :: c :: d :: tail, h =>
          rw [walkLoop_succ] at h
          dsimp only at h
          split at h
          · cases h
          · next hlong =>
            have hfour := four_le_length offset (fromLeBytes [a, b, c, d])
            generalize hp : packetAt offset (fromLeBytes [a, b, c, d]) = p at h hlong hfour
            have hoffset : p.offset = offset := by
              rw [← hp]
              exact Nat.min_eq_left (by omega)
            generalize hrest : a :: b :: c :: d :: tail = rest at h hlong hfit ⊢
            have hdrop := List.length_drop (i := p.length) (l := rest)
            cases hloop : walkLoop turns (offset + p.length) (rest.drop p.length) with
            | mk packets' overran =>
                rw [hloop] at h
                cases h
                have hchain := ih (by omega) hloop
                rw [show offset + p.length + (rest.drop p.length).length = offset + rest.length
                  by omega] at hchain
                exact ⟨hoffset, hfour, hchain⟩
      | [], h | [_], h | [_, _], h | [_, _, _], h =>
          rw [walkLoop] at h
          · cases h
            exact Nat.le_add_right _ _
          · simp

variable {stream : List Byte}

theorem walk_chained (hfit : stream.length ≤ u32Max) (ht : (walk stream).isTrustworthy = true) :
    Chained 0 stream.length (walk stream).packets := by
  have hover : (walkLoop stream.length 0 stream).2 = false := by
    simp only [PacketWalk.isTrustworthy, walk, Bool.and_eq_true, Bool.not_eq_true'] at ht
    exact ht.1.2
  have h : Chained 0 (0 + stream.length) (walkLoop stream.length 0 stream).1 :=
    walkLoop_chained (by omega) (Prod.ext rfl hover)
  rw [Nat.zero_add] at h
  exact h

theorem not_reserved (ht : (walk stream).isTrustworthy = true) {p : Packet}
    (hp : p ∈ (walk stream).packets) : p.kind ≠ .reserved := by
  simp only [PacketWalk.isTrustworthy, walk, Bool.and_eq_true, Bool.not_eq_true',
    List.any_eq_false, beq_iff_eq] at ht
  exact ht.1.1 p hp

def bodyBytes (stream : List Byte) (p : Packet) : List Byte :=
  (getRange stream p.bodyOffset (p.bodyOffset + p.bodyLength)).getD []

theorem length_bodyBytes (hfit : stream.length ≤ u32Max) (ht : (walk stream).isTrustworthy = true)
    {p : Packet} (hp : p ∈ (walk stream).packets) : (bodyBytes stream p).length = p.bodyLength := by
  have hchain := walk_chained hfit ht
  obtain ⟨-, hend⟩ := hchain.mem hp
  have hfour := hchain.four_le hp
  have hbody : p.bodyOffset = p.offset + 4 := Nat.mod_eq_of_lt (by unfold u32Max at hfit ⊢; omega)
  unfold bodyBytes getRange
  rw [hbody, Packet.bodyLength]
  rw [if_pos (by omega), Option.getD_some, List.length_take, List.length_drop]
  omega

end Orbistoun.Gpu.Cp
