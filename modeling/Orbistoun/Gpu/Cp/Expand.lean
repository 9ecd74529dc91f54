import Orbistoun.Lib.Stepper
import Orbistoun.Gpu.Cp.Resume
import Orbistoun.Gpu.Cp.Pieces

/-! # Indirect buffers carried out in place

A stream may call another buffer, chain to one, or wait at a `REWIND`. Before it is carried
out every buffer it goes to is put in the place of the jump, so that the command processor
sees one stream. A processor that follows the jumps itself, with the buffers it is to return
to on a stack, is what the expansion is compared with.
-/

namespace Orbistoun.Gpu.Cp

open Orbistoun.Lib

/-- `INDIRECT_BUFFER`: another buffer's commands, and then back; chained, never back. -/
def INDIRECT_BUFFER : Nat := 0x3F
def IB_SIZE_MASK : Nat := 0xFFFFF
def IB_CHAIN : Nat := 1 <<< 20

/-- `REWIND`: the command processor holds here until its valid bit is set. -/
def REWIND : Nat := 0x59
def REWIND_RELEASED : Nat := 1 <<< 31

/-- How deep buffers that go to buffers are followed. -/
def MAX_INDIRECT_DEPTH : Nat := 8

/-- Guest memory as buffers are read from it: the bytes of a range, all of them or none. -/
structure GuestReads where
  read : Nat → Nat → Option (List Byte)
  exact : ∀ address length bytes, read address length = some bytes → bytes.length = length

/-- Whether the valid bit behind a `REWIND`'s header is set. -/
def released (stream : List Byte) (p : Packet) : Bool :=
  (getRange stream p.bodyOffset (p.bodyOffset + 4)).any
    (fun w => fromLeBytes w &&& REWIND_RELEASED != 0)

/-- The three words of an `INDIRECT_BUFFER`'s body: where the buffer is, and its control
word. -/
def jumpWords (stream : List Byte) (p : Packet) : Option (Nat × Nat × Nat) :=
  match (getRange stream p.bodyOffset (p.bodyOffset + p.bodyLength)).map wordsOf with
  | some [low, high, control] => some (low, high, control)
  | _ => none

/-- `stream.get(start..stop).unwrap_or_default()`. -/
def sliceOf (stream : List Byte) (start stop : Nat) : List Byte :=
  (getRange stream start stop).getD []

/-- The loop of `expand_at_depth` over the packets still to come, with what is expanded and
how far the stream is copied; `inner` expands the buffer a jump goes to. -/
def expandLoop (inner : List Byte → Option Nat → List Byte × Option Nat) (m : GuestReads)
    (stream : List Byte) (base : Option Nat) :
    List Packet → List Byte → Nat → List Byte × Option Nat
  | [], expanded, copied => (expanded ++ sliceOf stream copied stream.length, none)
  | p :: rest, expanded, copied =>
      if p.kind == .command REWIND then
        if released stream p then
          expandLoop inner m stream base rest (expanded ++ sliceOf stream copied p.offset)
            (p.offset + p.length)
        else
          (expanded ++ sliceOf stream copied p.offset,
            base.map (fun base => wrap64 (base + p.offset)))
      else if p.kind == .command INDIRECT_BUFFER then
        match jumpWords stream p with
        | none => expandLoop inner m stream base rest expanded copied
        | some (low, high, control) =>
            let length := (control &&& IB_SIZE_MASK) * 4
            if length == 0 then
              expandLoop inner m stream base rest (expanded ++ sliceOf stream copied p.offset)
                (p.offset + p.length)
            else
              match m.read (address low high) length with
              | none => expandLoop inner m stream base rest expanded copied
              | some target =>
                  let went := inner target (some (address low high))
                  let expanded := expanded ++ sliceOf stream copied p.offset ++ went.1
                  if went.2.isSome || control &&& IB_CHAIN != 0 then (expanded, went.2)
                  else expandLoop inner m stream base rest expanded (p.offset + p.length)
      else expandLoop inner m stream base rest expanded copied

/-- `expand_at_depth`, told how many buffers deeper it may still follow. -/
def expandAtDepth (m : GuestReads) : Nat → List Byte → Option Nat → List Byte × Option Nat
  | 0, stream, _ => (stream, none)
  | deeper + 1, stream, base =>
      if !(walk stream).isTrustworthy then (stream, none)
      else expandLoop (expandAtDepth m deeper) m stream base (walk stream).packets [] 0

/-- `expand_holding`. -/
def expandHolding (m : GuestReads) (stream : List Byte) (base : Nat) : List Byte × Option Nat :=
  expandAtDepth m MAX_INDIRECT_DEPTH stream (some base)

/-! ## The processor that follows the jumps -/

/-- A buffer being run: where it is, how many jumps led to it, and its packets still to
run. -/
structure Frame where
  stream : List Byte
  base : Nat
  depth : Nat
  rest : List Packet
  deriving DecidableEq

/-- A command processor with a return stack, the buffer it runs first. -/
inductive Processor where
  | running (frames : List Frame)
  /-- At a `REWIND` that is not released. -/
  | held (rewind : Nat)
  /-- At a jump to a buffer that cannot be read, or is not trusted, with the buffers it would
  have come back to. -/
  | lost (frames : List Frame) (target : Option (List Byte))
  deriving DecidableEq

/-- What a packet has the processor do. -/
inductive Effect where
  | carry
  | pass
  | hold
  | jump (target length : Nat) (chain : Bool)

def Packet.effect (stream : List Byte) (p : Packet) : Effect :=
  if p.kind = .command REWIND then if released stream p then .pass else .hold
  else if p.kind = .command INDIRECT_BUFFER then
    match jumpWords stream p with
    | none => .carry
    | some (low, high, control) =>
        if control &&& IB_SIZE_MASK = 0 then .pass
        else .jump (address low high) ((control &&& IB_SIZE_MASK) * 4)
          (control &&& IB_CHAIN != 0)
  else .carry

/-- Goes to a buffer, with the buffers to come back to. -/
def Processor.enter (target : Option (List Byte)) (base depth : Nat) (frames : List Frame) :
    Processor :=
  match target with
  | none => .lost frames none
  | some stream =>
      if (walk stream).isTrustworthy then
        .running ({ stream, base, depth, rest := (walk stream).packets } :: frames)
      else .lost frames (some stream)

/-- One packet of the buffer being run, or the way back from its end; what is put out is the
packet carried out. -/
def Processor.step (m : GuestReads) : Processor → Option (List (List Byte) × Processor)
  | .running (f :: frames) =>
      match f.rest with
      | [] => some ([], .running frames)
      | p :: rest =>
          match p.effect f.stream with
          | .carry => some ([packetBytes f.stream p], .running ({ f with rest } :: frames))
          | .pass => some ([], .running ({ f with rest } :: frames))
          | .hold => some ([], .held (wrap64 (f.base + p.offset)))
          | .jump target length chain =>
              some ([], .enter (m.read target length) target (f.depth + 1)
                (if chain then frames else { f with rest } :: frames))
  | _ => none

def processor (m : GuestReads) : Stepper Processor (List Byte) := ⟨Processor.step m⟩

def Processor.start (stream : List Byte) (base : Nat) : Processor :=
  .enter (some stream) base 0 []

/-- Whether a processor stands at a jump it cannot follow. -/
def Processor.isLost : Processor → Bool
  | .lost _ _ => true
  | _ => false

/-- How many jumps, calls and chains alike, led to the buffers being run. -/
def Processor.jumps : Processor → Nat
  | .running frames => (frames.map Frame.depth).foldr max 0
  | _ => 0

/-- How many calls are still to be come back from. -/
def Processor.calls : Processor → Nat
  | .running frames => frames.length - 1
  | _ => 0

def carriedThrough (stream : List Byte) (memory : CpMemory) : List (List Byte) :=
  let passed := match (execute stream memory).1.stopped.offset with
    | none => (walk stream).packets
    | some offset => (walk stream).packets.takeWhile (fun p => p.offset < offset)
  passed.map (packetBytes stream)

/-- Carrying the expansion out carries out a beginning of what the processor carries out, and
where nothing is lost and no more than so many jumps are open, the whole of it. -/
structure Expands (m : GuestReads) (stream : List Byte) (base : Nat) (nest : Processor → Nat) :
    Prop where
  begins : ∀ memory : CpMemory, ∃ n,
    carriedThrough (expandHolding m stream base).1 memory <+:
      (processor m).out n (.start stream base)
  whole : (∀ n, ((processor m).last n (.start stream base)).isLost = false ∧
      nest ((processor m).last n (.start stream base)) < MAX_INDIRECT_DEPTH) →
    (walk (expandHolding m stream base).1).isTrustworthy = true ∧ ∃ n,
      (walk (expandHolding m stream base).1).packets.map
          (packetBytes (expandHolding m stream base).1) =
        (processor m).out n (.start stream base) ∧
      (processor m).last n (.start stream base) =
        match (expandHolding m stream base).2 with
        | none => .running []
        | some rewind => .held rewind

/-! ## What bars a stream from being carried out -/

/-- A packet nothing carries out. -/
def Bars (piece : List Byte) : Prop :=
  Sound piece ∧ (kindOf piece = .command INDIRECT_BUFFER ∨ kindOf piece = .command REWIND)

/-- Nothing of these bytes is carried out, whatever is put behind them, or nothing of the
whole stream, where there is nothing to come back to behind them. -/
inductive Barred (frames : List Frame) : List Byte → Prop where
  | bars {piece : List Byte} (h : Bars piece) (more : List Byte) : Barred frames (piece ++ more)
  | reserved {pieces : List (List Byte)} (h : ∀ piece ∈ pieces, Whole piece)
      (hreserved : ∃ piece ∈ pieces, kindOf piece = .reserved) (more : List Byte) :
      Barred frames (pieces.flatten ++ more)
  | overran {tail : List Byte} (hframes : frames = []) (h : (walk tail).overran = true) :
      Barred frames tail

theorem Barred.append {f : Frame} {frames : List Frame} {tail : List Byte}
    (h : Barred (f :: frames) tail) (frames' : List Frame) (more : List Byte) :
    Barred frames' (tail ++ more) := by
  cases h with
  | bars h tail =>
      rw [List.append_assoc]
      exact .bars h _
  | reserved h hreserved tail =>
      rw [List.append_assoc]
      exact .reserved h hreserved _
  | overran hframes h => cases hframes

/-- What expanding a buffer comes to, beside the processor that starts on it: it comes back
from the buffer, is held in it, or is stuck where the expansion left something that bars
it. -/
inductive Outcome (m : GuestReads) (s : Processor) (frames : List Frame) :
    List Byte × Option Nat → Prop where
  | returns {n : Nat} (hlast : (processor m).last n s = .running frames)
      (hsound : ∀ piece ∈ (processor m).out n s, Sound piece) :
      Outcome m s frames (((processor m).out n s).flatten, none)
  | holds {n rewind : Nat} (hlast : (processor m).last n s = .held rewind)
      (hsound : ∀ piece ∈ (processor m).out n s, Sound piece) :
      Outcome m s frames (((processor m).out n s).flatten, some rewind)
  | stuck {n : Nat} {tail : List Byte} {held : Option Nat} (htail : Barred frames tail)
      (hsound : ∀ piece ∈ (processor m).out n s, Sound piece)
      (hbeyond : ∃ k, ((processor m).last k s).isLost = true ∨
        MAX_INDIRECT_DEPTH ≤ ((processor m).last k s).jumps) :
      Outcome m s frames (((processor m).out n s).flatten ++ tail, held)

/-- No buffer the processor would come back from runs over its end. -/
def ComesBackWhole (m : GuestReads) (s : Processor) : Prop :=
  ∀ k frames target, (processor m).last k s = .lost frames (some target) →
    (walk target).overran = true → frames = []

variable {m : GuestReads} {s s' : Processor} {frames : List Frame}

theorem ComesBackWhole.after (h : ComesBackWhole m s) (n : Nat) :
    ComesBackWhole m ((processor m).last n s) := by
  intro k frames target hlast hover
  rw [← Stepper.last_add] at hlast
  exact h _ frames target hlast hover

/-- An outcome from a state a run comes to is one of the whole run. -/
theorem Outcome.after {n : Nat} {o : List Byte × Option Nat}
    (h : Outcome m ((processor m).last n s) frames o)
    (hsound : ∀ piece ∈ (processor m).out n s, Sound piece) :
    Outcome m s frames (((processor m).out n s).flatten ++ o.1, o.2) := by
  have hboth : ∀ k, (∀ piece ∈ (processor m).out k ((processor m).last n s), Sound piece) →
      ∀ piece ∈ (processor m).out (n + k) s, Sound piece := by
    intro k hk piece hpiece
    rw [Stepper.out_add] at hpiece
    rcases List.mem_append.mp hpiece with hpiece | hpiece
    · exact hsound piece hpiece
    · exact hk piece hpiece
  cases h with
  | @returns k hlast hk =>
      rw [← Stepper.last_add] at hlast
      have hreturns := Outcome.returns hlast (hboth k hk)
      rw [Stepper.out_add, List.flatten_append] at hreturns
      exact hreturns
  | @holds k rewind hlast hk =>
      rw [← Stepper.last_add] at hlast
      have hholds : Outcome m s frames _ := Outcome.holds hlast (hboth k hk)
      rw [Stepper.out_add, List.flatten_append] at hholds
      exact hholds
  | @stuck k tail held htail hk hbeyond =>
      obtain ⟨j, hj⟩ := hbeyond
      rw [← Stepper.last_add] at hj
      have hstuck : Outcome m s frames (_, held) :=
        Outcome.stuck htail (hboth k hk) ⟨n + j, hj⟩
      rw [Stepper.out_add, List.flatten_append, List.append_assoc] at hstuck
      exact hstuck

/-! ## One packet -/

theorem step_packet (stream : List Byte) (base depth : Nat) (p : Packet) (rest : List Packet)
    (frames : List Frame) :
    (processor m).step (.running (⟨stream, base, depth, p :: rest⟩ :: frames)) =
      match p.effect stream with
      | .carry => some ([packetBytes stream p], .running (⟨stream, base, depth, rest⟩ :: frames))
      | .pass => some ([], .running (⟨stream, base, depth, rest⟩ :: frames))
      | .hold => some ([], .held (wrap64 (base + p.offset)))
      | .jump target length chain =>
          some ([], .enter (m.read target length) target (depth + 1)
            (if chain then frames else ⟨stream, base, depth, rest⟩ :: frames)) := rfl

/-- A packet's step, and then what comes of the rest. -/
theorem Outcome.of_step {w : List (List Byte)} {o : List Byte × Option Nat}
    (hstep : (processor m).step s = some (w, s')) (hw : ∀ piece ∈ w, Sound piece)
    (h : Outcome m s' frames o) : Outcome m s frames (w.flatten ++ o.1, o.2) := by
  have hout : (processor m).out 1 s = w := by
    rw [Stepper.out_succ hstep]
    exact List.append_nil w
  have hlast : (processor m).last 1 s = s' := Stepper.last_succ hstep 0
  rw [← hlast] at h
  have hafter := Outcome.after h (by rw [hout]; exact hw)
  rw [hout] at hafter
  exact hafter

theorem ComesBackWhole.step {w : List (List Byte)} (h : ComesBackWhole m s)
    (hstep : (processor m).step s = some (w, s')) : ComesBackWhole m s' := by
  have hlast : (processor m).last 1 s = s' := Stepper.last_succ hstep 0
  rw [← hlast]
  exact h.after 1

/-- Coming to a jump that cannot be followed is being stuck at what is left there. -/
theorem Outcome.of_lost {w : List (List Byte)} {tail : List Byte} {held : Option Nat}
    (hstep : (processor m).step s = some (w, s')) (hlost : s'.isLost = true)
    (htail : Barred frames tail) : Outcome m s frames (tail, held) := by
  have hbeyond : ∃ k, ((processor m).last k s).isLost = true ∨
      MAX_INDIRECT_DEPTH ≤ ((processor m).last k s).jumps :=
    ⟨1, .inl (by rw [Stepper.last_succ hstep]; exact hlost)⟩
  exact Outcome.stuck (n := 0) htail (fun piece hpiece => by cases hpiece) hbeyond

theorem sliceOf_append (first middle last : List Byte) :
    sliceOf (first ++ middle ++ last) first.length (first ++ middle).length = middle := by
  unfold sliceOf getRange
  rw [if_pos (by simp), Option.getD_some, List.append_assoc, List.drop_left, List.length_append,
    Nat.add_sub_cancel_left, List.take_left]

/-- One turn of the expansion, by what the packet has the processor do. -/
theorem expandLoop_cons (inner : List Byte → Option Nat → List Byte × Option Nat)
    (stream : List Byte) (base : Option Nat) (p : Packet) (rest : List Packet)
    (expanded : List Byte) (copied : Nat) :
    expandLoop inner m stream base (p :: rest) expanded copied =
      match p.effect stream with
      | .carry => expandLoop inner m stream base rest expanded copied
      | .pass =>
          expandLoop inner m stream base rest (expanded ++ sliceOf stream copied p.offset)
            (p.offset + p.length)
      | .hold =>
          (expanded ++ sliceOf stream copied p.offset,
            base.map (fun base => wrap64 (base + p.offset)))
      | .jump target length chain =>
          match m.read target length with
          | none => expandLoop inner m stream base rest expanded copied
          | some bytes =>
              if (inner bytes (some target)).2.isSome || chain then
                (expanded ++ sliceOf stream copied p.offset ++ (inner bytes (some target)).1,
                  (inner bytes (some target)).2)
              else
                expandLoop inner m stream base rest
                  (expanded ++ sliceOf stream copied p.offset ++ (inner bytes (some target)).1)
                  (p.offset + p.length) := by
  rw [expandLoop]
  unfold Packet.effect
  by_cases hrewind : p.kind = .command REWIND
  · rw [if_pos hrewind, if_pos (by simpa using hrewind)]
    cases released stream p <;> rfl
  · rw [if_neg hrewind, if_neg (by simpa using hrewind)]
    by_cases hjump : p.kind = .command INDIRECT_BUFFER
    · rw [if_pos hjump, if_pos (by simpa using hjump)]
      cases hwords : jumpWords stream p with
      | none => rfl
      | some words =>
          obtain ⟨low, high, control⟩ := words
          dsimp only
          by_cases hblank : control &&& IB_SIZE_MASK = 0
          · rw [if_pos hblank, if_pos (by simp [hblank])]
          · rw [if_neg hblank, if_neg (by simpa using hblank)]
    · rw [if_neg hjump, if_neg (by simpa using hjump)]

theorem effect_jump {stream : List Byte} {p : Packet} {target length : Nat} {chain : Bool}
    (h : p.effect stream = .jump target length chain) :
    p.kind = .command INDIRECT_BUFFER ∧ length % 4 = 0 ∧ length ≤ u32Max := by
  unfold Packet.effect at h
  split at h
  · split at h <;> cases h
  · split at h
    · next hkind =>
      split at h
      · cases h
      · next low high control hwords =>
        split at h
        · cases h
        · cases h
          have hsize : control &&& IB_SIZE_MASK ≤ IB_SIZE_MASK := Nat.and_le_right
          refine ⟨hkind, Nat.mul_mod_left _ _, ?_⟩
          unfold IB_SIZE_MASK u32Max at *
          omega
    · cases h

theorem expandLoop_extends (inner : List Byte → Option Nat → List Byte × Option Nat)
    (base : Option Nat) (stream : List Byte) (packets : List Packet) (expanded : List Byte)
    (copied : Nat) :
    ∃ more held, expandLoop inner m stream base packets expanded copied =
      (expanded ++ more, held) := by
  induction packets generalizing expanded copied with
  | nil => exact ⟨_, _, rfl⟩
  | cons p packets ih =>
      have hmore : ∀ slice copied, ∃ more held,
          expandLoop inner m stream base packets (expanded ++ slice) copied =
            (expanded ++ more, held) := by
        intro slice copied
        obtain ⟨more, held, hmore⟩ := ih (expanded ++ slice) copied
        exact ⟨slice ++ more, held, by rw [hmore, List.append_assoc]⟩
      rw [expandLoop_cons]
      cases p.effect stream with
      | carry => exact ih _ _
      | pass => exact hmore _ _
      | hold => exact ⟨_, _, rfl⟩
      | jump target length chain =>
          dsimp only
          cases m.read target length with
          | none => exact ih _ _
          | some bytes =>
              dsimp only
              rw [List.append_assoc]
              split
              · exact ⟨_, _, rfl⟩
              · exact hmore _ _

theorem next_packet {stream copied pending piece : List Byte} {todo : List (List Byte)}
    (hstream : stream = copied ++ pending ++ (piece :: todo).flatten)
    (hfit : stream.length ≤ u32Max) :
    (packetAt (copied ++ pending).length (headerOf piece)).offset = (copied ++ pending).length ∧
      sliceOf stream copied.length (copied ++ pending).length = pending ∧
      stream = copied ++ (pending ++ piece) ++ todo.flatten ∧
      (copied ++ pending).length + piece.length = (copied ++ (pending ++ piece)).length := by
  refine ⟨Nat.min_eq_left ?_, ?_, ?_, ?_⟩
  · rw [hstream, List.length_append] at hfit
    omega
  · rw [hstream]
    exact sliceOf_append copied pending _
  · rw [hstream, List.flatten_cons]
    simp
  · simp
    omega

/-- What is not copied yet is copied whatever comes of the packets behind it. -/
theorem expandLoop_pending (inner : List Byte → Option Nat → List Byte × Option Nat)
    (base : Option Nat) {stream copied pending : List Byte} {todo : List (List Byte)}
    (hstream : stream = copied ++ pending ++ todo.flatten) (hfit : stream.length ≤ u32Max)
    (expanded : List Byte) :
    ∃ more held, expandLoop inner m stream base (packetsOf (copied ++ pending).length todo) expanded
      copied.length = (expanded ++ (pending ++ more), held) := by
  induction todo generalizing pending with
  | nil =>
      have hslice : sliceOf stream copied.length stream.length = pending := by
        rw [hstream, List.flatten_nil, List.append_nil]
        have h := sliceOf_append copied pending []
        rw [List.append_nil] at h
        exact h
      refine ⟨[], none, ?_⟩
      rw [packetsOf, expandLoop, hslice, List.append_nil]
  | cons piece todo ih =>
      obtain ⟨hoffset, hslice, hnext, hplace⟩ := next_packet hstream hfit
      have hlater : ∃ more held, expandLoop inner m stream base
          (packetsOf ((copied ++ pending).length + piece.length) todo) expanded copied.length =
            (expanded ++ (pending ++ more), held) := by
        obtain ⟨more, held, hmore⟩ := ih hnext
        rw [← hplace] at hmore
        exact ⟨piece ++ more, held, by rw [hmore, List.append_assoc]⟩
      have hcopied : ∀ after stop, ∃ more held, expandLoop inner m stream base
          (packetsOf ((copied ++ pending).length + piece.length) todo)
          (expanded ++ (pending ++ after)) stop = (expanded ++ (pending ++ more), held) := by
        intro after stop
        obtain ⟨more, held, hmore⟩ := expandLoop_extends (m := m) inner base stream
          (packetsOf ((copied ++ pending).length + piece.length) todo)
          (expanded ++ (pending ++ after)) stop
        exact ⟨after ++ more, held, by rw [hmore]; simp⟩
      have hpending := hcopied []
      rw [List.append_nil] at hpending
      rw [packetsOf, expandLoop_cons, hoffset, hslice]
      cases Packet.effect stream (packetAt (copied ++ pending).length (headerOf piece)) with
      | carry => exact hlater
      | pass => exact hpending _
      | hold => exact ⟨[], _, by rw [List.append_nil]⟩
      | jump target length chain =>
          dsimp only
          cases m.read target length with
          | none => exact hlater
          | some bytes =>
              dsimp only
              rw [List.append_assoc]
              split
              · exact ⟨_, _, rfl⟩
              · exact hcopied _ _

/-! ## A buffer and what it goes to -/

theorem length_of_packetAt {piece : List Byte} (h : Whole piece) (offset : Nat) :
    (packetAt offset (headerOf piece)).length = piece.length := h.2

/-- A jump to a buffer that is not trusted leaves bytes that bar what they are in. -/
theorem barred_of_untrusted {target : List Byte} (hmod : target.length % 4 = 0)
    (huntrusted : (walk target).isTrustworthy = false)
    (hframes : (walk target).overran = true → frames = []) : Barred frames target := by
  by_cases hover : (walk target).overran = true
  · exact .overran (hframes hover) hover
  · obtain ⟨pieces, hwhole, htarget, hpackets⟩ := exists_pieces hmod (by simpa using hover)
    have hreserved : ∃ piece ∈ pieces, kindOf piece = .reserved := by
      by_contra hnone
      simp only [not_exists, not_and] at hnone
      have htrusted := walk_trusted (fun piece hpiece => ⟨hwhole piece hpiece, hnone piece hpiece⟩)
      rw [← htarget, huntrusted] at htrusted
      cases htrusted
    have hbarred : Barred frames (pieces.flatten ++ []) := .reserved hwhole hreserved []
    rw [List.append_nil, ← htarget] at hbarred
    exact hbarred

/-- What expanding the buffers a stream goes to comes to. -/
structure Follows (m : GuestReads) (inner : List Byte → Option Nat → List Byte × Option Nat)
    (depth : Nat) : Prop where
  trusted : ∀ (target : List Byte) (base : Nat) (frames : List Frame),
    (walk target).isTrustworthy = true → target.length ≤ u32Max →
    ComesBackWhole m (.running (⟨target, base, depth, (walk target).packets⟩ :: frames)) →
    Outcome m (.running (⟨target, base, depth, (walk target).packets⟩ :: frames)) frames
      (inner target (some base))
  untrusted : ∀ (target : List Byte) (base : Option Nat),
    (walk target).isTrustworthy = false → inner target base = (target, none)

theorem jump_outcome {inner : List Byte → Option Nat → List Byte × Option Nat}
    {stream bytes : List Byte} {base depth target stop : Nat} {chain : Bool} {rest : List Packet}
    (hinner : Follows m inner (depth + 1)) (hmod : bytes.length % 4 = 0)
    (hfits : bytes.length ≤ u32Max) (hback : ComesBackWhole m s)
    (hstep : (processor m).step s = some ([], .enter (some bytes) target (depth + 1)
      (if chain then frames else ⟨stream, base, depth, rest⟩ :: frames)))
    (hlater : ComesBackWhole m (.running (⟨stream, base, depth, rest⟩ :: frames)) →
      ∀ expanded, ∃ o,
        expandLoop inner m stream (some base) rest expanded stop = (expanded ++ o.1, o.2) ∧
          Outcome m (.running (⟨stream, base, depth, rest⟩ :: frames)) frames o)
    (expanded pending : List Byte) :
    ∃ o, (if (inner bytes (some target)).2.isSome || chain then
          (expanded ++ pending ++ (inner bytes (some target)).1, (inner bytes (some target)).2)
        else expandLoop inner m stream (some base) rest
          (expanded ++ pending ++ (inner bytes (some target)).1) stop) =
        (expanded ++ (pending ++ o.1), o.2) ∧ Outcome m s frames o := by
  have hnothing : ∀ q ∈ ([] : List (List Byte)), Sound q := fun q hq => by cases hq
  by_cases htrust : (walk bytes).isTrustworthy = true
  · unfold Processor.enter at hstep
    dsimp only at hstep
    rw [if_pos htrust] at hstep
    have hout := hinner.trusted bytes target _ htrust hfits (hback.step hstep)
    generalize inner bytes (some target) = went at hout ⊢
    cases chain with
    | true =>
        refine ⟨went, ?_, hout.of_step hstep hnothing⟩
        rw [Bool.or_true, if_pos rfl, List.append_assoc]
    | false =>
        rw [Bool.or_false]
        rw [if_neg Bool.false_ne_true] at hstep hout
        cases hout with
        | @returns n hlast hsound =>
            have hback' := (hback.step hstep).after n
            rw [hlast] at hback'
            obtain ⟨o, hloop, ho⟩ := hlater hback' (expanded ++ pending ++ _)
            rw [← hlast] at ho
            refine ⟨_, ?_, (ho.after hsound).of_step hstep hnothing⟩
            dsimp only
            rw [Option.isSome_none, if_neg Bool.false_ne_true, hloop]
            simp
        | holds hlast hsound =>
            have hheld : Outcome m _ frames _ := Outcome.holds hlast hsound
            refine ⟨_, ?_, hheld.of_step hstep hnothing⟩
            dsimp only
            rw [Option.isSome_some, if_pos rfl, List.append_assoc]
            rfl
        | @stuck n tail held htail hsound hbeyond =>
            have hstuck : ∀ more held', Outcome m _ frames (_ ++ (tail ++ more), held') :=
              fun more held' => Outcome.stuck (htail.append frames more) hsound hbeyond
            cases held with
            | some rewind =>
                refine ⟨_, ?_, (hstuck [] (some rewind)).of_step hstep hnothing⟩
                rw [Option.isSome_some, if_pos rfl, List.append_assoc, List.append_nil]
                rfl
            | none =>
                obtain ⟨more, held, hmore⟩ := expandLoop_extends (m := m) inner (some base) stream
                  rest (expanded ++ pending ++ (((processor m).out n _).flatten ++ tail)) stop
                refine ⟨_, ?_, (hstuck more held).of_step hstep hnothing⟩
                rw [Option.isSome_none, if_neg Bool.false_ne_true, hmore]
                simp
  · have huntrusted : (walk bytes).isTrustworthy = false := by simpa using htrust
    rw [hinner.untrusted bytes _ huntrusted]
    unfold Processor.enter at hstep
    dsimp only at hstep ⊢
    rw [if_neg htrust] at hstep
    rw [Option.isSome_none, Bool.false_or]
    have hbarred := barred_of_untrusted hmod huntrusted
      (hback 1 _ bytes (Stepper.last_succ hstep 0))
    cases chain with
    | true =>
        rw [if_pos rfl] at hstep hbarred ⊢
        refine ⟨(bytes, none), ?_, Outcome.of_lost hstep rfl hbarred⟩
        rw [List.append_assoc]
    | false =>
        rw [if_neg Bool.false_ne_true] at hstep hbarred ⊢
        obtain ⟨more, held, hmore⟩ := expandLoop_extends (m := m) inner (some base) stream rest
          (expanded ++ pending ++ bytes) stop
        refine ⟨(bytes ++ more, held), ?_, Outcome.of_lost hstep rfl (hbarred.append frames more)⟩
        rw [hmore]
        simp

theorem expandLoop_outcome {inner : List Byte → Option Nat → List Byte × Option Nat}
    {stream copied pending : List Byte} {todo : List (List Byte)} {base depth : Nat}
    (hinner : Follows m inner (depth + 1))
    (hstream : stream = copied ++ pending ++ todo.flatten) (hfit : stream.length ≤ u32Max)
    (hsound : ∀ piece ∈ todo, Sound piece)
    (hback : ComesBackWhole m
      (.running (⟨stream, base, depth, packetsOf (copied ++ pending).length todo⟩ :: frames)))
    (expanded : List Byte) :
    ∃ o, expandLoop inner m stream (some base) (packetsOf (copied ++ pending).length todo) expanded
        copied.length = (expanded ++ (pending ++ o.1), o.2) ∧
      Outcome m
        (.running (⟨stream, base, depth, packetsOf (copied ++ pending).length todo⟩ :: frames))
        frames o := by
  induction todo generalizing copied pending expanded with
  | nil =>
      have hslice : sliceOf stream copied.length stream.length = pending := by
        rw [hstream, List.flatten_nil, List.append_nil]
        have h := sliceOf_append copied pending []
        rw [List.append_nil] at h
        exact h
      have hstep : (processor m).step (.running (⟨stream, base, depth, []⟩ :: frames)) =
          some ([], .running frames) := rfl
      refine ⟨([], none), ?_, ?_⟩
      · rw [packetsOf, expandLoop, hslice, List.append_nil]
      · have hdone : Outcome m (.running frames) frames ([], none) :=
          Outcome.returns (n := 0) rfl (fun piece hpiece => by cases hpiece)
        exact hdone.of_step hstep (fun piece hpiece => by cases hpiece)
  | cons piece todo ih =>
      obtain ⟨hoffset, hslice, hnext, hplace⟩ := next_packet hstream hfit
      have hpiece := hsound piece List.mem_cons_self
      have htodo : ∀ q ∈ todo, Sound q := fun q hq => hsound q (List.mem_cons_of_mem _ hq)
      have hlength := length_of_packetAt hpiece.1 (copied ++ pending).length
      have hstep := step_packet (m := m) stream base depth
        (packetAt (copied ++ pending).length (headerOf piece))
        (packetsOf ((copied ++ pending).length + piece.length) todo) frames
      have hnothing : ∀ q ∈ ([] : List (List Byte)), Sound q := fun q hq => by cases hq
      have hcopied : stream = (copied ++ (pending ++ piece)) ++ [] ++ todo.flatten := by
        rw [List.append_nil]
        exact hnext
      have hlater := fun (hback' : ComesBackWhole m (.running
          (⟨stream, base, depth, packetsOf ((copied ++ pending).length + piece.length) todo⟩ ::
            frames))) expanded' =>
        ih hcopied htodo
          (by rw [List.append_nil, ← hplace]; exact hback') expanded'
      rw [List.append_nil, ← hplace] at hlater
      simp only [List.nil_append] at hlater
      rw [packetsOf] at hback ⊢
      rw [expandLoop_cons, hoffset, hslice, hlength]
      generalize heffect : Packet.effect stream
        (packetAt (copied ++ pending).length (headerOf piece)) = effect at hstep ⊢
      cases effect with
      | carry =>
          have hbytes : packetBytes stream (packetAt (copied ++ pending).length (headerOf piece)) =
              piece := by
            rw [hstream, List.length_append] at hfit
            rw [List.flatten_cons, ← List.append_assoc] at hstream
            exact packetBytes_at hstream (by omega) hpiece.1
          dsimp only at hstep
          rw [hbytes] at hstep
          obtain ⟨o, hloop, ho⟩ := ih hnext htodo (by rw [← hplace]; exact hback.step hstep) expanded
          rw [← hplace] at hloop ho
          refine ⟨(piece ++ o.1, o.2), ?_, ?_⟩
          · rw [hloop, List.append_assoc]
          · have h := ho.of_step hstep (fun q hq => (List.mem_singleton.mp hq) ▸ hpiece)
            rw [List.flatten_singleton] at h
            exact h
      | pass =>
          obtain ⟨o, hloop, ho⟩ := hlater (hback.step hstep) (expanded ++ pending)
          refine ⟨o, ?_, ho.of_step hstep hnothing⟩
          rw [hloop, List.append_assoc]
      | hold =>
          have hheld : Outcome m (.held (wrap64 (base + (packetAt (copied ++ pending).length
              (headerOf piece)).offset))) frames ([], some (wrap64 (base + (packetAt
              (copied ++ pending).length (headerOf piece)).offset))) :=
            Outcome.holds (n := 0) rfl hnothing
          refine ⟨([], some _), ?_, hheld.of_step hstep hnothing⟩
          rw [List.append_nil, hoffset]
          rfl
      | jump target length chain =>
          obtain ⟨hkind, hmod, hfits⟩ := effect_jump heffect
          have hbars : Bars piece := ⟨hpiece, .inl hkind⟩
          cases hread : m.read target length with
          | none =>
              dsimp only at hstep ⊢
              rw [hread] at hstep ⊢
              obtain ⟨more, held, hmore⟩ := expandLoop_pending (m := m) inner (some base) hnext hfit
                expanded
              rw [← hplace, List.append_assoc] at hmore
              exact ⟨(piece ++ more, held), hmore, Outcome.of_lost hstep rfl (.bars hbars more)⟩
          | some bytes =>
              dsimp only at hstep ⊢
              rw [hread] at hstep ⊢
              dsimp only
              have hexact := m.exact target length bytes hread
              exact jump_outcome hinner (by omega) (by omega) hback hstep hlater expanded pending

theorem effect_carry {stream : List Byte} {p : Packet} (hjump : p.kind ≠ .command INDIRECT_BUFFER)
    (hrewind : p.kind ≠ .command REWIND) : p.effect stream = .carry := by
  unfold Packet.effect
  rw [if_neg hrewind, if_neg hjump]

/-- A buffer as deep as buffers are followed is copied, up to its first jump or `REWIND` as the
processor carries it out. -/
theorem copied_outcome {stream before : List Byte} {todo : List (List Byte)} {base depth : Nat}
    (hdepth : MAX_INDIRECT_DEPTH ≤ depth) (hstream : stream = before ++ todo.flatten)
    (hfit : stream.length ≤ u32Max) (hsound : ∀ piece ∈ todo, Sound piece) :
    Outcome m (.running (⟨stream, base, depth, packetsOf before.length todo⟩ :: frames)) frames
      (todo.flatten, none) := by
  have hnothing : ∀ q ∈ ([] : List (List Byte)), Sound q := fun q hq => by cases hq
  induction todo generalizing before with
  | nil =>
      have hstep : (processor m).step (.running (⟨stream, base, depth, []⟩ :: frames)) =
          some ([], .running frames) := rfl
      have hdone : Outcome m (.running frames) frames ([], none) :=
        Outcome.returns (n := 0) rfl hnothing
      exact hdone.of_step hstep hnothing
  | cons piece todo ih =>
      have hpiece := hsound piece List.mem_cons_self
      by_cases hbars : kindOf piece = .command INDIRECT_BUFFER ∨ kindOf piece = .command REWIND
      · have hdeep : ∀ rest, MAX_INDIRECT_DEPTH ≤
            (Processor.running (⟨stream, base, depth, rest⟩ :: frames)).jumps :=
          fun rest => Nat.le_trans hdepth (Nat.le_max_left _ _)
        exact Outcome.stuck (n := 0) (.bars ⟨hpiece, hbars⟩ _) hnothing ⟨0, .inr (hdeep _)⟩
      · obtain ⟨hjump, hrewind⟩ := not_or.mp hbars
        have hstep := step_packet (m := m) stream base depth
          (packetAt before.length (headerOf piece)) (packetsOf (before.length + piece.length) todo)
          frames
        rw [List.flatten_cons, ← List.append_assoc] at hstream
        have hbytes : packetBytes stream (packetAt before.length (headerOf piece)) = piece := by
          have hlong := hfit
          rw [hstream, List.length_append, List.length_append] at hlong
          exact packetBytes_at hstream (by omega) hpiece.1
        rw [effect_carry hjump hrewind, hbytes] at hstep
        have hrest := ih hstream (fun q hq => hsound q (List.mem_cons_of_mem _ hq))
        rw [List.length_append] at hrest
        have hwhole := hrest.of_step hstep (fun q hq => (List.mem_singleton.mp hq) ▸ hpiece)
        rw [List.flatten_singleton] at hwhole
        exact hwhole

theorem expandAtDepth_follows {deeper depth : Nat} (h : depth + deeper = MAX_INDIRECT_DEPTH) :
    Follows m (expandAtDepth m deeper) depth := by
  induction deeper generalizing depth with
  | zero =>
      constructor
      · intro target base frames htrust hfit _
        obtain ⟨pieces, hsound, htarget, hpackets⟩ := exists_sound_pieces htrust
        have hlaid : target = [] ++ pieces.flatten := htarget
        have hcopied : Outcome m (.running (⟨target, base, depth, packetsOf 0 pieces⟩ :: frames))
            frames (pieces.flatten, none) :=
          copied_outcome (Nat.le_of_eq h.symm) hlaid hfit hsound
        rw [← hpackets, ← htarget] at hcopied
        exact hcopied
      · intro target base _
        rfl
  | succ deeper ih =>
      constructor
      · intro target base frames htrust hfit hback
        obtain ⟨pieces, hsound, htarget, hpackets⟩ := exists_sound_pieces htrust
        rw [hpackets] at hback ⊢
        have hlaid : target = [] ++ [] ++ pieces.flatten := htarget
        obtain ⟨o, hloop, ho⟩ := expandLoop_outcome (ih (by omega)) hlaid hfit hsound hback []
        have hexpand : expandAtDepth m (deeper + 1) target (some base) = o := by
          rw [expandAtDepth, htrust, hpackets]
          exact hloop
        rw [hexpand]
        exact ho
      · intro target base huntrusted
        rw [expandAtDepth, huntrusted]
        rfl

/-! ## Carrying the expansion out -/

theorem stepPacket_stopped {σ : Type} {answer : (c : Call) → σ → c.Answer × σ} {state state' : σ}
    {stream : List Byte} {p : Packet} {segments : List DrawSegment} {result result' : CpExecution}
    {turns : Turns}
    (h : (stepPacket stream p segments result).run answer state = (.stopped result', state', turns)) :
    result'.stopped.offset = some p.offset := by
  have hgoes := Dialogue.goes_run answer (stepPacket stream p segments result) state
  rw [h] at hgoes
  clear h
  unfold stepPacket at hgoes
  split at hgoes
  · cases hgoes.2
  · cases hgoes.2
  · cases hgoes.2
    rfl
  · next opcode hkind =>
    dsimp only at hgoes
    split at hgoes
    · cases hgoes.2
    · split at hgoes
      · split at hgoes
        · obtain ⟨accepted, rest, -, hgoes⟩ := hgoes
          cases accepted
          · cases hgoes.2
            rfl
          · cases hgoes.2
        · cases hgoes.2
      · obtain ⟨⟨x, more⟩, first, last, -, -, hgoes⟩ := Dialogue.goes_bind.mp hgoes
        cases x with
        | ok a => cases hgoes.2
        | error stop =>
            cases hgoes.2
            exact stopped_offset _ _ _

theorem stepPacket_bars {σ : Type} (answer : (c : Call) → σ → c.Answer × σ) (state : σ)
    (stream : List Byte) {p : Packet} {opcode : Nat} (hkind : p.kind = .command opcode)
    (hbars : opcode = INDIRECT_BUFFER ∨ opcode = REWIND) (segments : List DrawSegment)
    (result : CpExecution) :
    ∃ result', ((stepPacket stream p segments result).run answer state).1 = .stopped result' := by
  have hinert : isMemoryInert opcode ((bodyBytes stream p).length / 4) = false := by
    rcases hbars with rfl | rfl <;> rfl
  have hdraw : Cp.isDraw opcode = false := by rcases hbars with rfl | rfl <;> rfl
  have hwork : ∃ ran, (p.work stream opcode).run answer state = ran ∧ ran.1.1 = .error .needsGpu := by
    rcases hbars with rfl | rfl <;> exact ⟨_, rfl, rfl⟩
  obtain ⟨⟨⟨x, more⟩, state', turns⟩, hwork, hstop⟩ := hwork
  cases hstop
  rw [stepPacket_carried ⟨hkind, hinert, hdraw⟩, Dialogue.run_bind, hwork]
  exact ⟨_, rfl⟩

theorem executeLoop_barred {σ : Type} (answer : (c : Call) → σ → c.Answer × σ) (state : σ)
    (stream : List Byte) {p : Packet} {opcode : Nat} (hkind : p.kind = .command opcode)
    (hbars : opcode = INDIRECT_BUFFER ∨ opcode = REWIND) (first rest : List Packet)
    (segments : List DrawSegment) (result : CpExecution) :
    ∃ q ∈ first ++ [p], (executeLoop answer stream (first ++ p :: rest) segments result
      state).1.stopped.offset = some q.offset := by
  induction first generalizing segments result state with
  | nil =>
      obtain ⟨result', hstop⟩ := stepPacket_bars answer state stream hkind hbars segments result
      refine ⟨p, List.mem_singleton_self p, ?_⟩
      rw [List.nil_append, executeLoop]
      generalize hran : (stepPacket stream p segments result).run answer state = ran at hstop
      obtain ⟨step, state', turns⟩ := ran
      cases hstop
      exact stepPacket_stopped hran
  | cons q first ih =>
      simp only [List.cons_append, executeLoop]
      generalize hran : (stepPacket stream q segments result).run answer state = ran
      obtain ⟨step, state', turns⟩ := ran
      cases step with
      | passedOver =>
          obtain ⟨q', hmem, hq'⟩ := ih state' segments result
          exact ⟨q', List.mem_cons_of_mem _ hmem, hq'⟩
      | carriedOut segments' result' =>
          obtain ⟨q', hmem, hq'⟩ := ih state' segments' result'
          exact ⟨q', List.mem_cons_of_mem _ hmem, hq'⟩
      | stopped result' => exact ⟨q, List.mem_cons_self, stepPacket_stopped hran⟩

theorem carriedThrough_untrusted {stream : List Byte} (h : (walk stream).isTrustworthy = false)
    (memory : CpMemory) : carriedThrough stream memory = [] := by
  have hrun : execute stream memory = ({ stopped := .malformed 0 }, []) := by
    unfold execute executeFrom
    rw [h]
    rfl
  have hnone : (walk stream).packets.takeWhile (fun p => p.offset < 0) = [] := by
    cases (walk stream).packets with
    | nil => rfl
    | cons p packets => exact List.takeWhile_cons_of_neg (by simp)
  unfold carriedThrough
  rw [hrun]
  show ((walk stream).packets.takeWhile (fun p => p.offset < 0)).map (packetBytes stream) = []
  rw [hnone, List.map_nil]

theorem carriedThrough_prefix (stream : List Byte) (memory : CpMemory) :
    carriedThrough stream memory <+: (walk stream).packets.map (packetBytes stream) := by
  unfold carriedThrough
  dsimp only
  split
  · exact List.prefix_rfl
  · exact (List.takeWhile_prefix _).map _

theorem map_packetBytes_flatten {pieces : List (List Byte)}
    (hsound : ∀ piece ∈ pieces, Sound piece) (hfit : pieces.flatten.length ≤ u32Max) :
    (walk pieces.flatten).packets.map (packetBytes pieces.flatten) = pieces := by
  have hwhole : ∀ piece ∈ pieces, Whole piece := fun piece hpiece => (hsound piece hpiece).1
  have hlaid : pieces.flatten = [] ++ pieces.flatten ++ [] := (List.append_nil _).symm
  rw [walk_packets_flatten hwhole]
  exact map_packetBytes hlaid hfit hwhole

theorem takeWhile_barred {α : Type*} {f : α → Bool} {first rest : List α} {a : α}
    (h : f a = false) : (first ++ a :: rest).takeWhile f <+: first := by
  induction first with
  | nil =>
      rw [List.nil_append, List.takeWhile_cons_of_neg (by simp [h])]
  | cons b first ih =>
      rw [List.cons_append, List.takeWhile_cons]
      split
      · exact (List.prefix_cons_inj b).mpr ih
      · exact List.nil_prefix

theorem execute_trusted {stream : List Byte} (h : (walk stream).isTrustworthy = true)
    (memory : CpMemory) : execute stream memory =
      executeLoop memory.answer stream (walk stream).packets
        ((drawSegments stream (walk stream).packets).dropWhile (fun segment => segment.first < 0))
        {} memory.state := by
  have hall : (walk stream).packets.filter (fun p => 0 ≤ p.offset) = (walk stream).packets := by
    apply List.filter_eq_self.mpr
    intro p _
    simp
  unfold execute executeFrom
  rw [h, hall]
  rfl

/-- Carrying a stream out gets no further than the first packet that stops it. -/
theorem carriedThrough_bars {pieces : List (List Byte)} {piece more : List Byte}
    (hsound : ∀ q ∈ pieces, Sound q) (hbars : Bars piece)
    (hfit : (pieces.flatten ++ (piece ++ more)).length ≤ u32Max) (memory : CpMemory) :
    carriedThrough (pieces.flatten ++ (piece ++ more)) memory <+: pieces := by
  generalize hstream : pieces.flatten ++ (piece ++ more) = stream at hfit ⊢
  cases htrust : (walk stream).isTrustworthy with
  | false =>
      rw [carriedThrough_untrusted htrust]
      exact List.nil_prefix
  | true =>
      have hwhole : ∀ q ∈ pieces, Whole q := fun q hq => (hsound q hq).1
      have hall : ∀ q ∈ pieces ++ [piece], Whole q := by
        intro q hq
        rcases List.mem_append.mp hq with hq | hq
        · exact hwhole q hq
        · exact (List.mem_singleton.mp hq) ▸ hbars.1.1
      have hlaid : (pieces ++ [piece]).flatten ++ more = stream := by
        rw [← hstream]
        simp
      obtain ⟨rest, hpackets⟩ := walk_packets_append hall more
      rw [hlaid, packetsOf_append, List.append_assoc, Nat.zero_add] at hpackets
      have hfirst : stream = [] ++ pieces.flatten ++ (piece ++ more) := hstream.symm
      have hbytes : (packetsOf 0 pieces).map (packetBytes stream) = pieces :=
        map_packetBytes hfirst hfit hwhole
      generalize hbar : packetAt pieces.flatten.length (headerOf piece) = bar at hpackets
      have hkind : ∃ opcode, bar.kind = .command opcode ∧
          (opcode = INDIRECT_BUFFER ∨ opcode = REWIND) := by
        rw [← hbar]
        rcases hbars.2 with h | h
        · exact ⟨_, h, .inl rfl⟩
        · exact ⟨_, h, .inr rfl⟩
      have hwalked : (walk stream).packets = packetsOf 0 pieces ++ bar :: rest := by
        rw [hpackets, ← hbar]
        rfl
      obtain ⟨opcode, hkind, hopcode⟩ := hkind
      obtain ⟨q, hq, hstop⟩ := executeLoop_barred memory.answer memory.state stream hkind hopcode
        (packetsOf 0 pieces) rest
        ((drawSegments stream (walk stream).packets).dropWhile (fun segment => segment.first < 0))
        {}
      rw [← hwalked, ← execute_trusted htrust] at hstop
      have hle : q.offset ≤ bar.offset := by
        rcases List.mem_append.mp hq with hq | hq
        · have hsorted := (walk_chained hfit htrust).sorted
          rw [hwalked] at hsorted
          have hbefore := (List.pairwise_append.mp hsorted).2.2 q hq bar List.mem_cons_self
          exact Nat.le_of_lt hbefore.2
        · exact Nat.le_of_eq (congrArg _ (List.mem_singleton.mp hq))
      have hpassed : carriedThrough stream memory =
          ((walk stream).packets.takeWhile (fun p => p.offset < q.offset)).map
            (packetBytes stream) := by
        unfold carriedThrough
        rw [hstop]
      have hprefix : (packetsOf 0 pieces ++ bar :: rest).takeWhile (fun p => p.offset < q.offset) <+:
          packetsOf 0 pieces := takeWhile_barred (by simpa using hle)
      have hmapped := hprefix.map (packetBytes stream)
      rw [hbytes] at hmapped
      rw [hpassed, hwalked]
      exact hmapped

/-- A barred stream carries out a beginning of what lies before the bar. -/
theorem carriedThrough_barred {pieces : List (List Byte)} {tail : List Byte}
    (hsound : ∀ q ∈ pieces, Sound q) (htail : Barred [] tail)
    (hfit : (pieces.flatten ++ tail).length ≤ u32Max) (memory : CpMemory) :
    carriedThrough (pieces.flatten ++ tail) memory <+: pieces := by
  have hwhole : ∀ q ∈ pieces, Whole q := fun q hq => (hsound q hq).1
  cases htail with
  | bars hbars more => exact carriedThrough_bars hsound hbars hfit memory
  | @reserved others h hreserved more =>
      have hboth : ∀ q ∈ pieces ++ others, Whole q := by
        intro q hq
        rcases List.mem_append.mp hq with hq | hq
        · exact hwhole q hq
        · exact h q hq
      obtain ⟨q, hq, hkind⟩ := hreserved
      have huntrusted := walk_reserved hboth ⟨q, List.mem_append_right _ hq, hkind⟩ more
      rw [List.flatten_append, List.append_assoc] at huntrusted
      rw [carriedThrough_untrusted huntrusted]
      exact List.nil_prefix
  | overran hframes h =>
      rw [carriedThrough_untrusted (walk_overran hwhole h)]
      exact List.nil_prefix

theorem carries_pieces {pieces : List (List Byte)} (hsound : ∀ piece ∈ pieces, Sound piece)
    (hfit : pieces.flatten.length ≤ u32Max) (memory : CpMemory) :
    carriedThrough pieces.flatten memory <+: pieces := by
  have hprefix := carriedThrough_prefix pieces.flatten memory
  rw [map_packetBytes_flatten hsound hfit] at hprefix
  exact hprefix

theorem Outcome.expands {stream : List Byte} {base : Nat}
    (h : Outcome m (.start stream base) [] (expandHolding m stream base))
    (hfit : (expandHolding m stream base).1.length ≤ u32Max) :
    Expands m stream base Processor.jumps := by
  generalize hexpand : expandHolding m stream base = o at h hfit
  cases h with
  | @returns n hlast hsound =>
      constructor
      · intro memory
        rw [hexpand]
        exact ⟨n, carries_pieces hsound hfit memory⟩
      · intro _
        rw [hexpand]
        exact ⟨walk_trusted hsound, n, map_packetBytes_flatten hsound hfit, hlast⟩
  | @holds n rewind hlast hsound =>
      constructor
      · intro memory
        rw [hexpand]
        exact ⟨n, carries_pieces hsound hfit memory⟩
      · intro _
        rw [hexpand]
        exact ⟨walk_trusted hsound, n, map_packetBytes_flatten hsound hfit, hlast⟩
  | @stuck n tail held htail hsound hbeyond =>
      constructor
      · intro memory
        rw [hexpand]
        exact ⟨n, carriedThrough_barred hsound htail hfit memory⟩
      · intro hclean
        obtain ⟨k, hk⟩ := hbeyond
        obtain ⟨hfound, hshallow⟩ := hclean k
        rcases hk with hlost | hdeep
        · rw [hfound] at hlost
          cases hlost
        · omega

/-- The expansion is carried out as the processor would carry the stream out. -/
theorem expandHolding_expands (m : GuestReads) (stream : List Byte) (base : Nat)
    (hfit : stream.length ≤ u32Max) (hexpanded : (expandHolding m stream base).1.length ≤ u32Max)
    (hback : ComesBackWhole m (.start stream base)) :
    Expands m stream base Processor.jumps := by
  have hfollows : Follows m (expandAtDepth m MAX_INDIRECT_DEPTH) 0 := expandAtDepth_follows rfl
  by_cases htrust : (walk stream).isTrustworthy = true
  · have hstart : Processor.start stream base =
        .running [⟨stream, base, 0, (walk stream).packets⟩] := by
      unfold Processor.start Processor.enter
      dsimp only
      rw [if_pos htrust]
    rw [hstart] at hback
    have hout : Outcome m (.start stream base) [] (expandHolding m stream base) := by
      rw [hstart]
      exact hfollows.trusted stream base [] htrust hfit hback
    exact hout.expands hexpanded
  · have hexpand : expandHolding m stream base = (stream, none) :=
      hfollows.untrusted stream (some base) (by simpa using htrust)
    constructor
    · intro memory
      rw [hexpand, carriedThrough_untrusted (by simpa using htrust)]
      exact ⟨0, List.nil_prefix⟩
    · intro hclean
      have hlost := (hclean 0).1
      unfold Processor.start Processor.enter at hlost
      dsimp only at hlost
      rw [if_neg htrust] at hlost
      cases hlost

/-- Where every buffer ends with a packet's end, none that is come back from runs over it. -/
theorem comesBackWhole_start (hreads : ∀ address length target,
    m.read address length = some target → (walk target).overran = false) (stream : List Byte)
    (base : Nat) : ComesBackWhole m (.start stream base) := by
  have henter : ∀ target base depth frames stream', (∀ t, target = some t → frames = [] ∨
      (walk t).overran = false) → ∀ frames', Processor.enter target base depth frames =
        .lost frames' (some stream') → frames' = [] ∨ (walk stream').overran = false := by
    intro target base depth frames stream' htarget frames' hlost
    unfold Processor.enter at hlost
    split at hlost
    · cases hlost
    · split at hlost
      · cases hlost
      · cases hlost
        exact htarget _ rfl
  have hstep : ∀ s s' w, (processor m).step s = some (w, s') → ∀ frames target,
      s' = .lost frames (some target) → frames = [] ∨ (walk target).overran = false := by
    intro s s' w hstep frames target hlost
    subst hlost
    match s, hstep with
    | .running (f :: frames'), hstep =>
        obtain ⟨bytes, base, depth, rest⟩ := f
        cases rest with
        | nil => cases hstep
        | cons p rest =>
            rw [step_packet] at hstep
            cases heffect : p.effect bytes with
            | carry => rw [heffect] at hstep; cases hstep
            | pass => rw [heffect] at hstep; cases hstep
            | hold => rw [heffect] at hstep; cases hstep
            | jump target' length chain =>
                rw [heffect] at hstep
                injection hstep with hstep
                injection hstep with _ hstep
                exact henter _ _ _ _ _ (fun t ht => .inr (hreads _ _ t ht)) _ hstep
  have hevery : ∀ k frames target,
      (processor m).last k (.start stream base) = .lost frames (some target) →
        frames = [] ∨ (walk target).overran = false := by
    intro k
    induction k with
    | zero =>
        intro frames target hlast
        rw [Stepper.last_zero] at hlast
        exact henter _ _ _ _ _ (fun t _ => .inl rfl) _ hlast
    | succ k ih =>
        intro frames target hlast
        cases hlater : (processor m).step ((processor m).last k (.start stream base)) with
        | none =>
            rw [Stepper.last_add, Stepper.last_of_stopped hlater] at hlast
            exact ih frames target hlast
        | some next =>
            obtain ⟨w, s'⟩ := next
            have hsnoc := (Stepper.run_snoc hlater).2
            exact hstep _ _ _ hlater frames target (hsnoc.symm.trans hlast)
  intro k frames target hlast hover
  rcases hevery k frames target hlast with hnil | hwhole
  · exact hnil
  · rw [hwhole] at hover
    cases hover

/-! ## A stream that calls, and one that chains too far -/

def commandBytes (opcode : Nat) (body : List Nat) : List Byte :=
  (commandHeader opcode body.length :: body).flatMap (toLeBytes 4)

def jumpTo (address chain : Nat) : List Byte :=
  commandBytes INDIRECT_BUFFER [address, 0, chain ||| 4]

def noCommand : List Byte := commandBytes NOP [0, 0, 0]

/-- Eight buffers that each chain to the next, and one that does nothing. -/
def chainedReads : GuestReads where
  read address length :=
    if length = 16 ∧ address ≤ 9 then
      some (if address = 9 then noCommand else jumpTo (address + 1) IB_CHAIN)
    else none
  exact := by
    intro address length bytes h
    split at h
    · next hcond =>
      cases h
      rw [hcond.1]
      split
      · rfl
      · exact length_flatMap_toLeBytes _
    · cases h

theorem chainedReads_whole : ∀ address length target,
    chainedReads.read address length = some target → (walk target).overran = false := by
  intro address length target h
  have hbuffers : ∀ address ≤ 9, (walk (if address = 9 then noCommand
      else jumpTo (address + 1) IB_CHAIN)).overran = false := by decide +kernel
  unfold chainedReads at h
  dsimp only at h
  split at h
  · next hcond =>
    cases h
    exact hbuffers address hcond.2
  · cases h

theorem chained_stops : (processor chainedReads).step
    ((processor chainedReads).last 20 (.start (jumpTo 1 IB_CHAIN) 0)) = none := by decide +kernel

/-- Nine chains, one behind another, have no call open at any time, and the expansion ends at
the ninth. -/
theorem chains_end_expansion :
    ¬ Expands chainedReads (jumpTo 1 IB_CHAIN) 0 Processor.calls := by
  intro h
  have hearly : ∀ n < 21, ((processor chainedReads).last n (.start (jumpTo 1 IB_CHAIN) 0)).isLost =
      false ∧ ((processor chainedReads).last n (.start (jumpTo 1 IB_CHAIN) 0)).calls <
        MAX_INDIRECT_DEPTH := by decide +kernel
  have hclean : ∀ n, ((processor chainedReads).last n (.start (jumpTo 1 IB_CHAIN) 0)).isLost =
      false ∧ ((processor chainedReads).last n (.start (jumpTo 1 IB_CHAIN) 0)).calls <
        MAX_INDIRECT_DEPTH := by
    intro n
    rcases Nat.lt_or_ge n 21 with hlt | hge
    · exact hearly n hlt
    · obtain ⟨d, rfl⟩ := Nat.exists_eq_add_of_le (Nat.le_of_succ_le hge)
      rw [Stepper.last_add, Stepper.last_of_stopped chained_stops]
      exact hearly 20 (by decide)
  obtain ⟨-, n, hpackets, -⟩ := h.whole hclean
  have hprefix := Stepper.out_le_of_stopped chained_stops n
  rw [← hpackets] at hprefix
  have hends : ¬ ((walk (expandHolding chainedReads (jumpTo 1 IB_CHAIN) 0).1).packets.map
      (packetBytes (expandHolding chainedReads (jumpTo 1 IB_CHAIN) 0).1) <+:
        (processor chainedReads).out 20 (.start (jumpTo 1 IB_CHAIN) 0)) := by decide +kernel
  exact hends hprefix

/-- A call to the fifth of the buffers, which chains on from there. -/
theorem expands_call : Expands chainedReads (jumpTo 5 0) 0 Processor.jumps :=
  expandHolding_expands chainedReads (jumpTo 5 0) 0 (by decide +kernel) (by decide +kernel)
    (comesBackWhole_start chainedReads_whole _ _)

end Orbistoun.Gpu.Cp
