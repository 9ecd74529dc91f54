import Orbistoun.Gpu.Cp.Expand
import Orbistoun.Gpu.Cp.Counts
import Orbistoun.Gpu.Cp.WalksBack
import Orbistoun.Gpu.Registers

/-! # Indirect draws as direct ones

An indirect draw is carried out as the packets a direct draw of each of its records would be,
behind the stream's own packets before it. They are walked back here to what they were built as,
from any answers memory gives, and the addresses the records are read at are the ones the packet
names exactly where no sum passes the end of the address space.
-/

namespace Orbistoun.Gpu.Cp

open Lib Work

/-! ## Packets that walk back -/

/-- A command packet: its opcode, and the words of its body. -/
abbrev Command := Nat × List Nat

def commandWords (c : Command) : List Nat := commandHeader c.1 c.2.length :: c.2

/-- A packet as it is read: its kind, and the words of its body. -/
def Packet.read (stream : List Byte) (p : Packet) : PacketKind × List Nat :=
  (p.kind, wordsOf (bodyBytes stream p))

structure Command.Plain (c : Command) : Prop where
  header : commandHeader c.1 c.2.length < 2 ^ 32
  reads : kindAndLength (commandHeader c.1 c.2.length) = (.command c.1, 4 + 4 * c.2.length)
  body : ∀ word ∈ c.2, word < 2 ^ 32

theorem wordsOf_flatMap {words : List Nat} (h : ∀ word ∈ words, word < 2 ^ 32) :
    wordsOf (words.flatMap (toLeBytes 4)) = words := by
  induction words with
  | nil => rfl
  | cons word words ih =>
      have hword := Build.fromLeBytes_toLeBytes (h word List.mem_cons_self)
      have hrest := ih (fun w hw => h w (List.mem_cons_of_mem _ hw))
      rw [List.flatMap_cons]
      show fromLeBytes (toLeBytes 4 word) :: wordsOf (words.flatMap (toLeBytes 4)) = _
      rw [hword, hrest]

theorem headerOf_command {c : Command} (h : c.Plain) (rest : List Byte) :
    headerOf ((commandWords c).flatMap (toLeBytes 4) ++ rest) = commandHeader c.1 c.2.length :=
  Build.fromLeBytes_toLeBytes h.header

theorem whole_command {c : Command} (h : c.Plain) :
    Whole ((commandWords c).flatMap (toLeBytes 4)) := by
  have hheader := headerOf_command h []
  rw [List.append_nil] at hheader
  have hlength : ((commandWords c).flatMap (toLeBytes 4)).length = 4 + 4 * c.2.length := by
    rw [length_flatMap_toLeBytes, commandWords, List.length_cons]
    omega
  constructor
  · omega
  · rw [hheader, h.reads, hlength]

theorem bodyBytes_at {stream before piece after : List Byte}
    (hstream : stream = before ++ piece ++ after) (hfit : before.length + 4 ≤ u32Max)
    (hwhole : Whole piece) :
    bodyBytes stream (packetAt before.length (headerOf piece)) = piece.drop 4 := by
  have hoffset : (packetAt before.length (headerOf piece)).bodyOffset = before.length + 4 := by
    show (min before.length u32Max + 4) % (u32Max + 1) = _
    rw [Nat.min_eq_left (by omega)]
    exact Nat.mod_eq_of_lt (by omega)
  have hlength : (packetAt before.length (headerOf piece)).bodyLength = piece.length - 4 := by
    show (kindAndLength (headerOf piece)).2 - 4 = _
    rw [hwhole.2]
  have hfour := hwhole.1
  unfold bodyBytes getRange
  rw [hoffset, hlength, hstream, if_pos (by simp only [List.length_append]; omega),
    Option.getD_some, List.append_assoc, Nat.add_sub_cancel_left, ← List.drop_drop, List.drop_left,
    List.drop_append_of_le_length hfour,
    List.take_append_of_le_length (by rw [List.length_drop]),
    List.take_of_length_le (by rw [List.length_drop])]

/-- Commands laid out walk back to themselves. -/
theorem read_commands {stream before after : List Byte} {commands : List Command}
    (hplain : ∀ c ∈ commands, c.Plain)
    (hstream : stream = before ++
      (commands.map (fun c => (commandWords c).flatMap (toLeBytes 4))).flatten ++ after)
    (hfit : stream.length ≤ u32Max) :
    (packetsOf before.length (commands.map (fun c => (commandWords c).flatMap (toLeBytes 4)))).map
        (Packet.read stream) =
      commands.map (fun c => (.command c.1, c.2)) := by
  induction commands generalizing before with
  | nil => rfl
  | cons c commands ih =>
      have hc := hplain c List.mem_cons_self
      have hheader := headerOf_command hc []
      rw [List.append_nil] at hheader
      rw [List.map_cons, List.flatten_cons] at hstream
      have hhere : stream = before ++ (commandWords c).flatMap (toLeBytes 4) ++
          ((commands.map (fun c => (commandWords c).flatMap (toLeBytes 4))).flatten ++ after) := by
        rw [hstream]
        simp only [List.append_assoc]
      have hnext : stream = (before ++ (commandWords c).flatMap (toLeBytes 4)) ++
          (commands.map (fun c => (commandWords c).flatMap (toLeBytes 4))).flatten ++ after := by
        rw [hhere]
        simp only [List.append_assoc]
      have hroom : before.length + 4 ≤ u32Max := by
        have hfour := (whole_command hc).1
        rw [hhere, List.length_append, List.length_append] at hfit
        omega
      have hbody := bodyBytes_at hhere hroom (whole_command hc)
      have hkind : (packetAt before.length
          (headerOf ((commandWords c).flatMap (toLeBytes 4)))).kind = .command c.1 := by
        show (kindAndLength _).1 = _
        rw [hheader, hc.reads]
      have hdrop : ((commandWords c).flatMap (toLeBytes 4)).drop 4 = c.2.flatMap (toLeBytes 4) := rfl
      rw [List.map_cons, packetsOf, List.map_cons, List.map_cons, ← List.length_append,
        ih (fun d hd => hplain d (List.mem_cons_of_mem _ hd)) hnext, Packet.read, hkind, hbody,
        hdrop, wordsOf_flatMap hc.body]

theorem walkLoop_split {turns offset : Nat} {rest : List Byte} {before after : List Packet}
    {p : Packet} (h : (walkLoop turns offset rest).1 = before ++ p :: after) :
    ∃ (pieces : List (List Byte)) (tail : List Byte), (∀ piece ∈ pieces, Whole piece) ∧
      rest = pieces.flatten ++ tail ∧ before = packetsOf offset pieces ∧
        p.offset = min (offset + pieces.flatten.length) u32Max := by
  induction turns generalizing offset rest before with
  | zero =>
      have hnil : (walkLoop 0 offset rest).1 = [] := by simp [walkLoop]
      rw [hnil] at h
      cases before <;> cases h
  | succ turns ih =>
      rcases rest with _ | ⟨a, _ | ⟨b, _ | ⟨c, _ | ⟨d, tail⟩⟩⟩⟩
      iterate 4
        · cases before <;> cases h
      · rw [walkLoop_succ] at h
        dsimp only at h
        have hfour := four_le_length offset (fromLeBytes [a, b, c, d])
        generalize hp : packetAt offset (fromLeBytes [a, b, c, d]) = q at h hfour
        have hheader : fromLeBytes [a, b, c, d] = headerOf (a :: b :: c :: d :: tail) := rfl
        generalize a :: b :: c :: d :: tail = rest at h hheader ⊢
        cases before with
        | nil =>
            refine ⟨[], rest, by simp, rfl, rfl, ?_⟩
            have hhead : q = p := by
              split at h
              · exact (List.cons_eq_cons.mp h).1
              · exact (List.cons_eq_cons.mp h).1
            rw [← hhead, ← hp]
            rfl
        | cons first before =>
            split at h
            · have hlen := congrArg List.length h
              simp at hlen
            · next hlong =>
              obtain ⟨rfl, hrest⟩ := List.cons_eq_cons.mp h
              obtain ⟨pieces, last, hwhole, hsplit, hbefore, hoffset⟩ := ih hrest
              have htaken : (rest.take q.length).length = q.length := by
                rw [List.length_take]
                omega
              have hhead : headerOf (rest.take q.length) = headerOf rest := by
                unfold headerOf
                rw [List.take_take, Nat.min_eq_left hfour]
              refine ⟨rest.take q.length :: pieces, last, ?_, ?_, ?_, ?_⟩
              · intro piece hpiece
                rcases List.mem_cons.mp hpiece with rfl | hpiece
                · refine ⟨by omega, ?_⟩
                  rw [htaken, hhead, ← hheader, ← hp]
                  rfl
                · exact hwhole piece hpiece
              · rw [List.flatten_cons, List.append_assoc, ← hsplit, List.take_append_drop]
              · rw [packetsOf, hhead, ← hheader, hp, htaken, hbefore]
              · rw [hoffset, List.flatten_cons, List.length_append, htaken, Nat.add_assoc]

/-! ## The segment a draw is handed as -/

/-- A segment walks to the packets before one of a stream, kept as they were, and then to
commands. -/
structure DrawnBehind (stream : List Byte) (before : List Packet) (p : Packet)
    (segment : DrawSegment) (commands : List Command) : Prop where
  first : segment.first = p.offset
  endAt : segment.endAt = segment.stream.length
  kept : segment.stream.take p.offset = stream.take p.offset
  overran : (walk segment.stream).overran = false
  packets : ∃ own, (walk segment.stream).packets = before ++ own ∧
    own.map (Packet.read segment.stream) = commands.map (fun c => (.command c.1, c.2))

theorem drawnSegment_behind {stream : List Byte} {before after : List Packet} {p : Packet}
    {commands : List Command} {segment : DrawSegment}
    (hsplit : (walk stream).packets = before ++ p :: after) (hsome : commands ≠ [])
    (hplain : ∀ c ∈ commands, c.Plain)
    (h : drawnSegment stream p.offset (commands.flatMap commandWords) = some segment) :
    DrawnBehind stream before p segment commands := by
  obtain ⟨pieces, tail, hwhole, hstream, hbefore, hoffset⟩ := walkLoop_split hsplit
  rw [Nat.zero_add] at hoffset
  unfold drawnSegment getRange at h
  split at h
  · cases h
  · next taken htaken =>
    split at htaken
    · next hrange =>
      cases htaken
      dsimp only at h
      split at h
      · next hfit =>
        cases h
        have hown : (commands.flatMap commandWords).flatMap (toLeBytes 4) =
            (commands.map (fun c => (commandWords c).flatMap (toLeBytes 4))).flatten := by
          rw [List.flatMap_assoc, List.flatMap_def]
        have hwholeOwn : ∀ piece ∈ commands.map (fun c => (commandWords c).flatMap (toLeBytes 4)),
            Whole piece := by
          intro piece hpiece
          obtain ⟨c, hc, rfl⟩ := List.mem_map.mp hpiece
          exact whole_command (hplain c hc)
        have hfour : 4 ≤ ((commands.map
            (fun c => (commandWords c).flatMap (toLeBytes 4))).flatten).length := by
          obtain ⟨c, hc⟩ := List.exists_mem_of_ne_nil commands hsome
          have hle := length_le_flatten hwholeOwn
          rw [← hown, length_flatMap_toLeBytes] at hle ⊢
          have hpos := List.length_pos_of_mem hc
          rw [List.length_map] at hle
          omega
        -- words behind the packets leave their offset below the largest one
        have hlength : p.offset = pieces.flatten.length := by
          rw [hown, List.length_append, List.length_take, List.length_drop] at hfit
          omega
        have hkept : (stream.drop 0).take (p.offset - 0) = pieces.flatten := by
          rw [List.drop_zero, Nat.sub_zero, hlength, hstream, List.take_left]
        rw [hkept, hown] at hfit ⊢
        have hall : ∀ piece ∈ pieces ++
            commands.map (fun c => (commandWords c).flatMap (toLeBytes 4)), Whole piece := by
          intro piece hpiece
          rcases List.mem_append.mp hpiece with hpiece | hpiece
          · exact hwhole piece hpiece
          · exact hwholeOwn piece hpiece
        have hpackets := walk_packets_flatten hall
        have hover := congrArg Prod.snd (walkLoop_append hall [])
        rw [List.append_nil, List.flatten_append] at hover
        rw [List.flatten_append, packetsOf_append, Nat.zero_add] at hpackets
        have hread := read_commands hplain (List.append_nil _).symm hfit
        exact
          { first := rfl
            endAt := rfl
            kept := by
              rw [hlength, List.take_left, hstream, List.take_left]
            overran := hover
            packets := ⟨_, by rw [hpackets, hbefore], hread⟩ }
      · cases h
    · cases htaken

/-! ## The packets of a record -/

/-- A register write at a location; a location of zero names none. -/
def registerWrite (location value : Nat) : List Command :=
  if location = 0 then [] else [(SET_SH_REG, [location, value])]

/-- The direct packets a record is drawn as: the registers its packet names, the instance count,
and the draw. A record of no vertices or no instances is none. -/
def directPackets (draw : IndirectDraw) (maxSize index : Nat) (record : List Nat) :
    List Command :=
  match recordFields record with
  | none => []
  | some (count, instances, first, vertex, firstInstance) =>
      if count = 0 ∨ instances = 0 then []
      else
        registerWrite draw.vertexLocation vertex ++
          draw.indexLocation.elim [] (fun location => registerWrite location first) ++
          registerWrite draw.instanceLocation firstInstance ++
          draw.drawIndexLocation.elim [] (fun location => registerWrite location index) ++
          [(NUM_INSTANCES, [instances]),
            if draw.indexed then (DRAW_INDEX_OFFSET_2, [maxSize, first, count, draw.initiator])
            else (DRAW_INDEX_AUTO, [count, draw.initiator])]

theorem setShRegister_eq (location value : Nat) :
    setShRegister location value = (registerWrite location value).flatMap commandWords := by
  unfold setShRegister registerWrite
  by_cases h : location = 0
  · rw [if_pos h, h]
    rfl
  · rw [if_neg h, if_pos (bne_iff_ne.mpr h)]
    rfl

theorem setShRegister_elim (location : Option Nat) (value : Nat) :
    (location.elim [] (fun l => registerWrite l value)).flatMap commandWords =
      location.elim [] (fun l => setShRegister l value) := by
  cases location with
  | none => rfl
  | some l => exact (setShRegister_eq l value).symm

theorem drawWords_eq (draw : IndirectDraw) (record : List Nat) (index maxSize : Nat) :
    drawWords draw record index maxSize =
      if directPackets draw maxSize index record = [] then none
      else some ((directPackets draw maxSize index record).flatMap commandWords) := by
  cases hfields : recordFields record with
  | none =>
      have hempty : directPackets draw maxSize index record = [] := by
        unfold directPackets
        rw [hfields]
      rw [if_pos hempty]
      unfold drawWords
      rw [hfields]
  | some fields =>
      obtain ⟨count, instances, first, vertex, firstInstance⟩ := fields
      by_cases hnone : count = 0 ∨ instances = 0
      · have hempty : directPackets draw maxSize index record = [] := by
          unfold directPackets
          rw [hfields]
          exact if_pos hnone
        rw [if_pos hempty]
        unfold drawWords
        rw [hfields]
        exact if_pos (by simpa using hnone)
      · have hsome : directPackets draw maxSize index record ≠ [] := by
          unfold directPackets
          rw [hfields]
          simp [hnone]
        rw [if_neg hsome]
        unfold drawWords directPackets
        rw [hfields]
        dsimp only
        rw [if_neg (by simpa using hnone), if_neg hnone]
        simp only [List.flatMap_append, List.append_assoc, setShRegister_elim, ← setShRegister_eq]
        cases draw.indexLocation <;> cases draw.drawIndexLocation <;> cases draw.indexed <;> rfl

/-- What fits the words of a packet. -/
structure IndirectDraw.Fits (draw : IndirectDraw) : Prop where
  vertexLocation : draw.vertexLocation < 2 ^ 32
  indexLocation : ∀ location ∈ draw.indexLocation, location < 2 ^ 32
  instanceLocation : draw.instanceLocation < 2 ^ 32
  drawIndexLocation : ∀ location ∈ draw.drawIndexLocation, location < 2 ^ 32
  initiator : draw.initiator < 2 ^ 32

theorem plain_of_lt {opcode n : Nat} {body : List Nat} (hlength : body.length = n)
    (hheader : commandHeader opcode n < 2 ^ 32 ∧
      kindAndLength (commandHeader opcode n) = (.command opcode, 4 + 4 * n))
    (hbody : ∀ word ∈ body, word < 2 ^ 32) : Command.Plain (opcode, body) := by
  subst hlength
  exact ⟨hheader.1, hheader.2, hbody⟩

theorem registerWrite_plain {location value : Nat} (hlocation : location < 2 ^ 32)
    (hvalue : value < 2 ^ 32) : ∀ c ∈ registerWrite location value, c.Plain := by
  intro c hc
  unfold registerWrite at hc
  split at hc
  · cases hc
  · rw [List.mem_singleton.mp hc]
    apply @plain_of_lt SET_SH_REG 2 _ rfl (by decide)
    simpa using And.intro hlocation hvalue

theorem recordFields_lt {record : List Nat} (hrecord : ∀ word ∈ record, word < 2 ^ 32)
    {count instances first vertex firstInstance : Nat}
    (h : recordFields record = some (count, instances, first, vertex, firstInstance)) :
    count < 2 ^ 32 ∧ instances < 2 ^ 32 ∧ first < 2 ^ 32 ∧ vertex < 2 ^ 32 ∧
      firstInstance < 2 ^ 32 := by
  unfold recordFields at h
  split at h
  · cases h
    simp only [List.forall_mem_cons] at hrecord
    exact ⟨hrecord.1, hrecord.2.1, by decide, hrecord.2.2.1, hrecord.2.2.2.1⟩
  · cases h
    simp only [List.forall_mem_cons] at hrecord
    exact ⟨hrecord.1, hrecord.2.1, hrecord.2.2.1, hrecord.2.2.2.1, hrecord.2.2.2.2.1⟩
  · cases h

theorem directPackets_plain {draw : IndirectDraw} (hdraw : draw.Fits) {maxSize index : Nat}
    (hmax : maxSize < 2 ^ 32) (hindex : index < 2 ^ 32) {record : List Nat}
    (hrecord : ∀ word ∈ record, word < 2 ^ 32) :
    ∀ c ∈ directPackets draw maxSize index record, c.Plain := by
  intro c hc
  unfold directPackets at hc
  split at hc
  · cases hc
  · next count instances first vertex firstInstance hfields =>
    obtain ⟨hcount, hinstances, hfirst, hvertex, hfirstInstance⟩ :=
      recordFields_lt hrecord hfields
    split at hc
    · cases hc
    · have helim : ∀ (location : Option Nat) (value : Nat), (∀ l ∈ location, l < 2 ^ 32) →
          value < 2 ^ 32 → c ∈ location.elim [] (fun l => registerWrite l value) → c.Plain := by
        intro location value hlocation hvalue hmem
        cases location with
        | none => cases hmem
        | some l => exact registerWrite_plain (hlocation l rfl) hvalue c hmem
      simp only [List.mem_append, List.mem_cons, List.not_mem_nil, or_false] at hc
      rcases hc with (((hc | hc) | hc) | hc) | hc | hc
      · exact registerWrite_plain hdraw.vertexLocation hvertex c hc
      · exact helim _ _ hdraw.indexLocation hfirst hc
      · exact registerWrite_plain hdraw.instanceLocation hfirstInstance c hc
      · exact helim _ _ hdraw.drawIndexLocation hindex hc
      · rw [hc]
        apply @plain_of_lt NUM_INSTANCES 1 _ rfl (by decide)
        simpa using hinstances
      · rw [hc]
        split
        · apply @plain_of_lt DRAW_INDEX_OFFSET_2 4 _ rfl (by decide)
          simpa using And.intro hmax (And.intro hfirst (And.intro hcount hdraw.initiator))
        · apply @plain_of_lt DRAW_INDEX_AUTO 2 _ rfl (by decide)
          simpa using And.intro hcount hdraw.initiator

/-! ## The words of a packet -/

theorem wordsOf_lt (bytes : List Byte) : ∀ word ∈ wordsOf bytes, word < 2 ^ 32 := by
  induction bytes using wordsOf.induct with
  | case1 a b c d rest ih =>
      intro word hword
      rw [wordsOf] at hword
      rcases List.mem_cons.mp hword with rfl | hword
      · exact lt_of_lt_of_eq (Registers.fromLeBytes_lt [a, b, c, d]) (show 256 ^ 4 = _ by decide)
      · exact ih word hword
  | case2 bytes h =>
      intro word hword
      rw [wordsOf] at hword
      · cases hword
      · exact h

def Count.most : Count → Nat
  | .packet count => count
  | .memory most _ => most

theorem decode_fits {opcode : Nat} {body : List Nat} (hbody : ∀ word ∈ body, word < 2 ^ 32)
    {draw : IndirectDraw} (h : IndirectDraw.decode opcode body = .ok draw) :
    draw.Fits ∧ draw.count.most < 2 ^ 32 := by
  have hmask : ∀ word, word &&& 0xffff < 2 ^ 32 := by
    intro word
    rw [show (0xffff : Nat) = 2 ^ 16 - 1 from rfl, Nat.and_two_pow_sub_one_eq_mod]
    omega
  have hhigh : ∀ word, word < 2 ^ 32 → word >>> 16 < 2 ^ 32 := by
    intro word hword
    rw [Nat.shiftRight_eq_div_pow]
    omega
  have hite : ∀ (c : Bool) (l location : Nat), l < 2 ^ 32 →
      location ∈ (if c then some l else none) → location < 2 ^ 32 := by
    intro c l location hl hmem
    cases c with
    | false => cases hmem
    | true =>
        cases hmem
        exact hl
  unfold IndirectDraw.decode at h
  split at h
  · split at h
    · cases h
      simp only [List.forall_mem_cons] at hbody
      exact ⟨⟨hmask _, by simp, hmask _, by simp, hbody.2.2.2.1⟩, show 1 < 2 ^ 32 by decide⟩
    · cases h
  · split at h
    · split at h
      · cases h
        simp only [List.forall_mem_cons] at hbody
        exact ⟨⟨hmask _, fun location => hite _ _ location (hhigh _ hbody.2.1), hmask _, by simp,
          hbody.2.2.2.1⟩, show 1 < 2 ^ 32 by decide⟩
      · cases h
    · split at h
      · split at h
        · split at h
          · cases h
          · cases h
            simp only [List.forall_mem_cons] at hbody
            refine ⟨⟨hmask _, fun location => hite _ _ location (hhigh _ hbody.2.1), hmask _,
              fun location => hite _ _ location (hmask _), hbody.2.2.2.2.2.2.2.2.1⟩, ?_⟩
            dsimp only
            split
            · exact hbody.2.2.2.2.1
            · exact hbody.2.2.2.2.1
        · cases h
      · cases h

/-! ## The records read -/

abbrev Record (draw : IndirectDraw) := { bytes : List Byte // bytes.length = draw.recordBytes }

def recordReads (draw : IndirectDraw) (base : Nat) : Nat → List (Record draw) → Turns
  | _, [] => []
  | index, record :: records =>
      ⟨.read (wrap64 (base + index * draw.stride)) draw.recordBytes, some record⟩ ::
        recordReads draw base (index + 1) records

def recordPackets (draw : IndirectDraw) (maxSize : Nat) : Nat → List (Record draw) → List Command
  | _, [] => []
  | index, record :: records =>
      directPackets draw maxSize index (wordsOf record.val) ++
        recordPackets draw maxSize (index + 1) records

/-- How many records are read: the packet's count, or the count in memory limited by it. -/
def CountRead : Count → Turns → Nat → Prop
  | .packet asked, turns, count => turns = [] ∧ count = asked
  | .memory most address, turns, count =>
      ∃ bytes : { bytes : List Byte // bytes.length = 4 },
        turns = [⟨.read address 4, some bytes⟩] ∧ count = min (fromLeBytes bytes.val) most

theorem recordPackets_plain {draw : IndirectDraw} (hdraw : draw.Fits) {maxSize : Nat}
    (hmax : maxSize < 2 ^ 32) {index : Nat} {records : List (Record draw)}
    (hindex : index + records.length ≤ 2 ^ 32) :
    ∀ c ∈ recordPackets draw maxSize index records, c.Plain := by
  induction records generalizing index with
  | nil =>
      intro c hc
      cases hc
  | cons record records ih =>
      rw [List.length_cons] at hindex
      intro c hc
      rcases List.mem_append.mp hc with hc | hc
      · exact directPackets_plain hdraw hmax (by omega) (wordsOf_lt _) c hc
      · exact ih (by omega) c hc

/-! ## What the work can do -/

theorem goes_bind_cases {α β : Type} {w : Work α} {f : α → Work β} {turns : Turns}
    {x : Except Stop β} {c : Counts} (h : Dialogue.Goes (w >>= f : Work β) turns (x, c)) :
    (∃ a first rest c₁ c₂, turns = first ++ rest ∧ Dialogue.Goes w first (.ok a, c₁) ∧
      Dialogue.Goes (f a) rest (x, c₂)) ∨
    ∃ stop, x = .error stop ∧ Dialogue.Goes w turns (.error stop, c) := by
  obtain ⟨⟨y, c₁⟩, first, rest, rfl, hfirst, hrest⟩ := Dialogue.goes_bind.mp h
  cases y with
  | error stop =>
      obtain ⟨rfl, hx⟩ := hrest
      cases hx
      rw [List.append_nil]
      exact .inr ⟨stop, rfl, hfirst⟩
  | ok a =>
      obtain ⟨⟨z, c₂⟩, second, last, rfl, hsecond, rfl, hx⟩ := Dialogue.goes_bind.mp hrest
      cases hx
      rw [List.append_nil]
      exact .inl ⟨a, first, second, c₁, c₂, rfl, hfirst, hsecond⟩

theorem goes_ofExcept_bind {α β : Type} {e : Except Stop α} {f : α → Work β} {turns : Turns}
    {x : Except Stop β} {c : Counts}
    (h : Dialogue.Goes (ofExcept e >>= f : Work β) turns (x, c)) :
    (∃ a c', e = .ok a ∧ Dialogue.Goes (f a) turns (x, c')) ∨
      turns = [] ∧ ∃ stop, x = .error stop := by
  rcases goes_bind_cases h with ⟨a, first, rest, c₁, c₂, rfl, hfirst, hrest⟩ | ⟨stop, rfl, hstop⟩
  · cases e with
    | error s => cases hfirst.2
    | ok a' =>
        obtain ⟨rfl, hx⟩ := hfirst
        cases hx
        exact .inl ⟨a, c₂, rfl, hrest⟩
  · cases e with
    | error s => exact .inr ⟨hstop.1, stop, rfl⟩
    | ok a' => cases hstop.2

theorem goes_ofOption_bind {α β : Type} {s : Stop} {o : Option α} {f : α → Work β} {turns : Turns}
    {x : Except Stop β} {c : Counts}
    (h : Dialogue.Goes (ofOption s o >>= f : Work β) turns (x, c)) :
    (∃ a c', o = some a ∧ Dialogue.Goes (f a) turns (x, c')) ∨
      turns = [] ∧ ∃ stop, x = .error stop := by
  cases o with
  | none => exact (goes_ofExcept_bind (e := .error s) h).imp (fun ⟨a, _, ha, _⟩ => nomatch ha) id
  | some a =>
      rcases goes_ofExcept_bind (e := .ok a) h with ⟨a', c', ha, hrest⟩ | hstop
      · cases ha
        exact .inl ⟨a, c', rfl, hrest⟩
      · exact .inr hstop

def Call.IsRead (c : Call) : Prop := ∃ address length, c = .read address length

theorem readRecords_asks (draw : IndirectDraw) (base maxSize left index : Nat) :
    Asks Call.IsRead (readRecords draw base maxSize left index) := by
  have hread : ∀ address length, Asks Call.IsRead (read address length) :=
    fun address length => asks_bind (asks_ask ⟨address, length, rfl⟩) (fun _ => asks_ofOption _ _)
  induction left generalizing index with
  | zero => exact asks_pure _
  | succ left ih =>
      refine asks_bind (hread _ _) (fun bytes => asks_bind (ih _) (fun found => ?_))
      dsimp only
      split <;> exact asks_pure _

theorem recordCount_asks (count : Count) : Asks Call.IsRead (recordCount count) := by
  cases count with
  | packet count => exact asks_pure _
  | memory most address =>
      have hread : Asks Call.IsRead (read address 4) :=
        asks_bind (asks_ask ⟨address, 4, rfl⟩) (fun _ => asks_ofOption _ _)
      exact asks_bind hread (fun _ => asks_pure _)

theorem readRecords_gives (draw : IndirectDraw) (base maxSize left index : Nat) :
    Counted (readRecords draw base maxSize left index) (fun turns found c => c = 0 ∧
      ∃ records : List (Record draw), records.length = left ∧
        turns = recordReads draw base index records ∧
        found.1 = (recordPackets draw maxSize index records).flatMap commandWords ∧
        (found.2 = 0 ↔ recordPackets draw maxSize index records = [])) := by
  induction left generalizing index with
  | zero => exact counted_pure ⟨rfl, [], rfl, rfl, rfl, by simp [recordPackets]⟩
  | succ left ih =>
      apply counted_bind (read_counted _ _)
      rintro first bytes ⟨hlength, rfl⟩
      apply counted_bind (ih (index + 1))
      rintro rest ⟨words, drawn⟩ ⟨records, hcount, rfl, hwords, hdrawn⟩
      dsimp only at hwords hdrawn ⊢
      rw [drawWords_eq]
      by_cases hempty : directPackets draw maxSize index (wordsOf bytes) = []
      · rw [if_pos hempty]
        apply counted_pure
        refine ⟨rfl, ⟨bytes, hlength⟩ :: records, by rw [List.length_cons, hcount], ?_, ?_, ?_⟩
        · rw [List.append_nil]
          rfl
        · rw [recordPackets, hempty, List.nil_append, hwords]
        · rw [recordPackets, hempty, List.nil_append, hdrawn]
      · rw [if_neg hempty]
        apply counted_pure
        refine ⟨rfl, ⟨bytes, hlength⟩ :: records, by rw [List.length_cons, hcount], ?_, ?_, ?_⟩
        · rw [List.append_nil]
          rfl
        · rw [recordPackets, List.flatMap_append, hwords]
        · rw [recordPackets, List.append_eq_nil_iff]
          simp [hempty]

theorem recordCount_gives (count : Count) :
    Counted (recordCount count) (fun turns n c => c = 0 ∧ CountRead count turns n) := by
  cases count with
  | packet count => exact counted_pure ⟨rfl, rfl, rfl⟩
  | memory most address =>
      apply counted_bind (read_counted _ _)
      rintro first bytes ⟨hlength, rfl⟩
      exact counted_pure ⟨rfl, ⟨bytes, hlength⟩, rfl, rfl⟩

/-- The base the records are read past, as the code forms it. -/
def recordBase (draw : IndirectDraw) (base : Nat) : Nat := wrap64 (base + draw.dataOffset)

def carriedSize (stream : List Byte) (offset : Nat) (draw : IndirectDraw) : Nat :=
  if draw.indexed then indexBufferSize stream offset else 0

/-- An indirect draw's records, as many as it asks for, each read where the code reads it. -/
structure RecordsRead (stream : List Byte) (offset opcode : Nat) (body : List Nat)
    (draw : IndirectDraw) (base : Nat) (records : List (Record draw)) (turns : Turns) : Prop where
  decoded : IndirectDraw.decode opcode body = .ok draw
  based : indirectBase stream offset = some base
  counted : ∃ counting, CountRead draw.count counting records.length ∧
    turns = counting ++ recordReads draw (recordBase draw base) 0 records

theorem CountRead.isRead {count : Count} {counting : Turns} {n : Nat}
    (h : CountRead count counting n) : ∀ turn ∈ counting, turn.1.IsRead := by
  intro turn hturn
  cases count with
  | packet asked =>
      rw [h.1] at hturn
      cases hturn
  | memory most address =>
      obtain ⟨bytes, rfl, -⟩ := h
      rw [List.mem_singleton.mp hturn]
      exact ⟨address, 4, rfl⟩

theorem recordReads_isRead (draw : IndirectDraw) (base index : Nat) (records : List (Record draw)) :
    ∀ turn ∈ recordReads draw base index records, turn.1.IsRead := by
  induction records generalizing index with
  | nil =>
      intro turn hturn
      cases hturn
  | cons record records ih =>
      intro turn hturn
      rcases List.mem_cons.mp hturn with rfl | hturn
      · exact ⟨_, _, rfl⟩
      · exact ih (index + 1) turn hturn

theorem RecordsRead.isRead {stream : List Byte} {offset opcode : Nat} {body : List Nat}
    {draw : IndirectDraw} {base : Nat} {records : List (Record draw)} {turns : Turns}
    (h : RecordsRead stream offset opcode body draw base records turns) :
    ∀ turn ∈ turns, turn.1.IsRead := by
  obtain ⟨counting, hcount, rfl⟩ := h.counted
  intro turn hturn
  rcases List.mem_append.mp hturn with hturn | hturn
  · exact hcount.isRead turn hturn
  · exact recordReads_isRead draw _ 0 records turn hturn

theorem Call.not_isRead_runDraws (segment : DrawSegment) : ¬ (Call.runDraws segment).IsRead := by
  rintro ⟨address, length, h⟩
  cases h

/-- An indirect draw stops among its reads, or has read its records; then it is done where none
of them draws, and else hands over the segment of their packets. -/
theorem runIndirectDraw_goes {stream : List Byte} {offset opcode : Nat} {body : List Nat}
    {turns : Turns} {x : Except Stop Unit} {c : Counts}
    (h : Dialogue.Goes (runIndirectDraw stream offset opcode body) turns (x, c)) :
    ((∀ turn ∈ turns, turn.1.IsRead) ∧ ∃ stop, x = .error stop) ∨
    ∃ draw base records reads, RecordsRead stream offset opcode body draw base records reads ∧
      ((recordPackets draw (carriedSize stream offset draw) 0 records = [] ∧ turns = reads) ∨
        (recordPackets draw (carriedSize stream offset draw) 0 records ≠ [] ∧
          ∃ segment accepted, drawnSegment stream offset
            ((recordPackets draw (carriedSize stream offset draw) 0 records).flatMap commandWords) =
              some segment ∧ turns = reads ++ [⟨.runDraws segment, accepted⟩])) := by
  have hnil : ∀ turn ∈ ([] : Turns), turn.1.IsRead := by
    intro turn hturn
    cases hturn
  have hread : ∀ {first rest : Turns}, (∀ turn ∈ first, turn.1.IsRead) →
      (∀ turn ∈ rest, turn.1.IsRead) → ∀ turn ∈ first ++ rest, turn.1.IsRead := by
    intro first rest hfirst hrest turn hturn
    exact (List.mem_append.mp hturn).elim (hfirst turn) (hrest turn)
  unfold runIndirectDraw at h
  rcases goes_ofExcept_bind h with ⟨draw, c₁, hdecode, hbased⟩ | ⟨rfl, hstop⟩
  case inr => exact .inl ⟨hnil, hstop⟩
  rcases goes_ofOption_bind hbased with ⟨base, c₂, hbase, hcounting⟩ | ⟨rfl, hstop⟩
  case inr => exact .inl ⟨hnil, hstop⟩
  rcases goes_bind_cases hcounting with
    ⟨count, counting, rest, c₃, c₄, rfl, hcount, hreading⟩ | ⟨stop, rfl, hstop⟩
  case inr =>
    exact .inl ⟨Dialogue.Asks.of_goes (recordCount_asks _) hstop, stop, rfl⟩
  have hcounted := (recordCount_gives draw.count _ _ _ hcount).2
  have hcountReads := Dialogue.Asks.of_goes (recordCount_asks draw.count) hcount
  rcases goes_bind_cases hreading with
    ⟨⟨words, drawn⟩, reads, last, c₅, c₆, rfl, hrecords, hhanding⟩ | ⟨stop, rfl, hstop⟩
  case inr =>
    exact .inl ⟨hread hcountReads (Dialogue.Asks.of_goes (readRecords_asks ..) hstop), stop, rfl⟩
  have hrecordReads := Dialogue.Asks.of_goes (readRecords_asks ..) hrecords
  obtain ⟨-, records, hlength, rfl, hwords, hdrawn⟩ :=
    readRecords_gives draw _ _ count 0 _ _ _ hrecords
  have hfound : RecordsRead stream offset opcode body draw base records
      (counting ++ recordReads draw (recordBase draw base) 0 records) := by
    refine ⟨hdecode, hbase, counting, ?_, rfl⟩
    rw [hlength]
    exact hcounted
  dsimp only at hwords hdrawn hhanding
  by_cases hzero : drawn = 0
  · rw [if_pos (beq_iff_eq.mpr hzero)] at hhanding
    obtain ⟨rfl, -⟩ := hhanding
    exact .inr ⟨draw, base, records, _, hfound, .inl ⟨hdrawn.mp hzero, by rw [List.append_nil]; rfl⟩⟩
  · rw [if_neg (fun heq => hzero (beq_iff_eq.mp heq))] at hhanding
    rcases goes_ofOption_bind hhanding with ⟨segment, c₇, hsegment, hasking⟩ | ⟨rfl, hstop⟩
    case inr =>
      rw [List.append_nil]
      exact .inl ⟨hread hcountReads hrecordReads, hstop⟩
    rw [hwords] at hsegment
    refine .inr ⟨draw, base, records, _, hfound, .inr ⟨fun heq => hzero (hdrawn.mpr heq), segment, ?_⟩⟩
    obtain ⟨⟨y, counts⟩, asked, after, rfl, ⟨accepted, none', rfl, rfl, hy⟩, hafter⟩ :=
      Dialogue.goes_bind.mp hasking
    cases hy
    refine ⟨accepted, hsegment, ?_⟩
    have hend : after = [] := by
      match (accepted : Bool), hafter with
      | true, hdone => exact hdone.1
      | false, hdone => exact hdone.1
    rw [hend, List.append_assoc]
    rfl

/-! ## Indirect draws as the direct ones -/

/-- From any answers, an indirect draw reads its records where the packet's base, offset and
stride put them, no sum passing the end of the address space; what it hands over walks to the
stream's own packets before it and then to each record's direct packets, in order; and it is done
without handing anything over only where no record draws. -/
structure DrawsDirectly (stream : List Byte) (before : List Packet) (p : Packet) (opcode : Nat) :
    Prop where
  exact : ∀ draw base, IndirectDraw.decode opcode (wordsOf (bodyBytes stream p)) = .ok draw →
    indirectBase stream p.offset = some base →
      recordBase draw base = base + draw.dataOffset ∧
        ∀ counting count, CountRead draw.count counting count → ∀ index < count,
          wrap64 (recordBase draw base + index * draw.stride) =
            base + draw.dataOffset + index * draw.stride
  handed : ∀ turns x, Dialogue.Goes
    (runIndirectDraw stream p.offset opcode (wordsOf (bodyBytes stream p))) turns x →
      ∀ segment accepted, (⟨.runDraws segment, accepted⟩ : Dialogue.Turn Call.Answer) ∈ turns →
        ∃ draw base records reads,
          RecordsRead stream p.offset opcode (wordsOf (bodyBytes stream p)) draw base records reads ∧
            turns = reads ++ [⟨.runDraws segment, accepted⟩] ∧
              DrawnBehind stream before p segment
                (recordPackets draw (carriedSize stream p.offset draw) 0 records)
  done : ∀ turns c, Dialogue.Goes
    (runIndirectDraw stream p.offset opcode (wordsOf (bodyBytes stream p))) turns (.ok (), c) →
      (∀ segment accepted,
        (⟨.runDraws segment, accepted⟩ : Dialogue.Turn Call.Answer) ∉ turns) →
          ∃ draw base records,
            RecordsRead stream p.offset opcode (wordsOf (bodyBytes stream p)) draw base records turns ∧
              recordPackets draw (carriedSize stream p.offset draw) 0 records = []

/-- The last record a packet may ask for begins below the end of the address space. -/
def AddressesFit (stream : List Byte) (p : Packet) (opcode : Nat) : Prop :=
  ∀ draw base, IndirectDraw.decode opcode (wordsOf (bodyBytes stream p)) = .ok draw →
    indirectBase stream p.offset = some base →
      base + draw.dataOffset + (draw.count.most - 1) * draw.stride < 2 ^ 64

theorem CountRead.le_most {count : Count} {counting : Turns} {n : Nat}
    (h : CountRead count counting n) : n ≤ count.most := by
  cases count with
  | packet asked => exact Nat.le_of_eq h.2
  | memory most address =>
      obtain ⟨bytes, -, rfl⟩ := h
      exact Nat.min_le_right _ _

/-- A count in memory can be the most there may be. -/
theorem exists_countRead {count : Count} (h : count.most < 2 ^ 32) :
    ∃ counting, CountRead count counting count.most := by
  cases count with
  | packet asked => exact ⟨[], rfl, rfl⟩
  | memory most address =>
      have hvalue := Build.fromLeBytes_toLeBytes h
      refine ⟨_, ⟨toLeBytes 4 most, rfl⟩, rfl, ?_⟩
      show most = min (fromLeBytes (toLeBytes 4 most)) most
      rw [show fromLeBytes (toLeBytes 4 most) = most from hvalue, Nat.min_self]

theorem indexBufferSize_lt (stream : List Byte) (offset : Nat) :
    indexBufferSize stream offset < 2 ^ 32 := by
  unfold indexBufferSize
  cases hlast : ((packetsBefore stream offset INDEX_BUFFER_SIZE).filterMap
      (fun p => bodyWord stream p 0)).getLast? with
  | none => decide
  | some size =>
      obtain ⟨q, -, hword⟩ := List.mem_filterMap.mp (List.mem_of_getLast? hlast)
      obtain ⟨bytes, hrange, rfl⟩ := Option.map_eq_some_iff.mp hword
      have hlength : bytes.length ≤ 4 := by
        unfold getRange at hrange
        split at hrange
        · cases hrange
          rw [List.length_take]
          omega
        · cases hrange
      calc fromLeBytes bytes < 256 ^ bytes.length := Registers.fromLeBytes_lt bytes
        _ ≤ 256 ^ 4 := Nat.pow_le_pow_right (by decide) hlength

theorem recordsRead_plain {stream : List Byte} {offset opcode : Nat} {bytes : List Byte}
    {draw : IndirectDraw} {base : Nat} {records : List (Record draw)} {turns : Turns}
    (h : RecordsRead stream offset opcode (wordsOf bytes) draw base records turns) :
    ∀ c ∈ recordPackets draw (carriedSize stream offset draw) 0 records, c.Plain := by
  obtain ⟨counting, hcount, -⟩ := h.counted
  obtain ⟨hfits, hmost⟩ := decode_fits (wordsOf_lt bytes) h.decoded
  have hle := hcount.le_most
  apply recordPackets_plain hfits
  · unfold carriedSize
    split
    · exact indexBufferSize_lt stream offset
    · decide
  · omega

/-- The addresses are the exact ones, exactly where the last of them fits. -/
theorem exact_iff {base offset stride : Nat} {counts : Nat → Prop} {most : Nat}
    (hle : ∀ count, counts count → count ≤ most) (hmost : counts most) :
    (wrap64 (base + offset) = base + offset ∧ ∀ count, counts count → ∀ index < count,
      wrap64 (wrap64 (base + offset) + index * stride) = base + offset + index * stride) ↔
      base + offset + (most - 1) * stride < 2 ^ 64 := by
  have hwrap : ∀ n, wrap64 n = n ↔ n < 2 ^ 64 := by
    intro n
    unfold wrap64
    omega
  constructor
  · rintro ⟨hbase, haddresses⟩
    rcases Nat.eq_zero_or_pos most with rfl | hpos
    · rw [Nat.zero_sub, Nat.zero_mul, Nat.add_zero]
      exact (hwrap _).mp hbase
    · have hlast := haddresses most hmost (most - 1) (by omega)
      rw [hbase] at hlast
      exact (hwrap _).mp hlast
  · intro hfit
    have hbase : wrap64 (base + offset) = base + offset := (hwrap _).mpr (by omega)
    refine ⟨hbase, ?_⟩
    intro count hcount index hindex
    have hstep : index * stride ≤ (most - 1) * stride := by
      apply Nat.mul_le_mul_right
      have := hle count hcount
      omega
    rw [hbase]
    exact (hwrap _).mpr (by omega)

/-- Every indirect draw of a stream is drawn as the direct packets of its records, at the exact
addresses exactly where the last record it may ask for begins inside the address space. -/
theorem drawsDirectly_iff {stream : List Byte} {before after : List Packet} {p : Packet}
    (hsplit : (walk stream).packets = before ++ p :: after) (opcode : Nat) :
    DrawsDirectly stream before p opcode ↔ AddressesFit stream p opcode := by
  have hexact : ∀ draw base, IndirectDraw.decode opcode (wordsOf (bodyBytes stream p)) = .ok draw →
      ((recordBase draw base = base + draw.dataOffset ∧
        ∀ counting count, CountRead draw.count counting count → ∀ index < count,
          wrap64 (recordBase draw base + index * draw.stride) =
            base + draw.dataOffset + index * draw.stride) ↔
        base + draw.dataOffset + (draw.count.most - 1) * draw.stride < 2 ^ 64) := by
    intro draw base hdecode
    have hmost := (decode_fits (wordsOf_lt _) hdecode).2
    have hiff := @exact_iff base draw.dataOffset draw.stride
      (fun count => ∃ counting, CountRead draw.count counting count) draw.count.most
      (fun count ⟨counting, hcount⟩ => hcount.le_most) (exists_countRead hmost)
    rw [← hiff]
    constructor
    · rintro ⟨hbase, haddresses⟩
      exact ⟨hbase, fun count ⟨counting, hcount⟩ => haddresses counting count hcount⟩
    · rintro ⟨hbase, haddresses⟩
      exact ⟨hbase, fun counting count hcount => haddresses count ⟨counting, hcount⟩⟩
  constructor
  · intro h draw base hdecode hbase
    exact (hexact draw base hdecode).mp (h.exact draw base hdecode hbase)
  · intro h
    refine ⟨fun draw base hdecode hbase => (hexact draw base hdecode).mpr (h draw base hdecode hbase),
      ?_, ?_⟩
    · rintro turns ⟨x, c⟩ hgoes segment accepted hmem
      rcases runIndirectDraw_goes hgoes with ⟨hreads, -⟩ | ⟨draw, base, records, reads, hrecords,
        ⟨-, rfl⟩ | ⟨hsome, segment', accepted', hsegment, rfl⟩⟩
      · exact absurd (hreads _ hmem) (Call.not_isRead_runDraws segment)
      · exact absurd (hrecords.isRead _ hmem) (Call.not_isRead_runDraws segment)
      · rcases List.mem_append.mp hmem with hmem | hmem
        · exact absurd (hrecords.isRead _ hmem) (Call.not_isRead_runDraws segment)
        · cases List.mem_singleton.mp hmem
          exact ⟨draw, base, records, reads, hrecords, rfl,
            drawnSegment_behind hsplit hsome (recordsRead_plain hrecords) hsegment⟩
    · intro turns c hgoes hnone
      rcases runIndirectDraw_goes hgoes with ⟨-, stop, hstop⟩ | ⟨draw, base, records, reads, hrecords,
        ⟨hempty, rfl⟩ | ⟨-, segment, accepted, -, rfl⟩⟩
      · cases hstop
      · exact ⟨draw, base, records, hrecords, hempty⟩
      · exact absurd (List.mem_append_right _ (List.mem_singleton_self _)) (hnone segment accepted)

def oneIndirectDraw (base offset : Nat) : List Byte :=
  ([commandHeader SET_BASE 3, 1, base % 2 ^ 32, base >>> 32,
    commandHeader DRAW_INDIRECT 4, offset, 0x4c, 0x4e, 2]).flatMap (toLeBytes 4)

def basePacket : Packet := ⟨0, 16, 3221360896, .command SET_BASE⟩
def drawPacket : Packet := ⟨16, 20, 3221431296, .command DRAW_INDIRECT⟩

def drawPast (offset : Nat) : IndirectDraw where
  indexed := false
  dataOffset := offset
  vertexLocation := 0x4c
  indexLocation := none
  instanceLocation := 0x4e
  drawIndexLocation := none
  count := .packet 1
  stride := 0
  initiator := 2

theorem drawsDirectly_iff_one :
    DrawsDirectly (oneIndirectDraw 0x4000 0x10) [basePacket] drawPacket DRAW_INDIRECT := by
  have hdecode : IndirectDraw.decode DRAW_INDIRECT
      (wordsOf (bodyBytes (oneIndirectDraw 0x4000 0x10) drawPacket)) = .ok (drawPast 0x10) := rfl
  have hbase : indirectBase (oneIndirectDraw 0x4000 0x10) drawPacket.offset = some 0x4000 := by
    decide +kernel
  apply (@drawsDirectly_iff _ [basePacket] [] drawPacket (by decide +kernel) DRAW_INDIRECT).mpr
  intro draw base hdecode' hbase'
  cases hdecode.symm.trans hdecode'
  cases hbase.symm.trans hbase'
  decide

/-- A base and an offset the sum of which wraps: the record is read at `0x1000`. -/
theorem wrapped_base_differs :
    (walk (oneIndirectDraw 0xFFFFFFFFFFFFFFF0 0x1010)).packets = [basePacket] ++ drawPacket :: [] ∧
      ¬ DrawsDirectly (oneIndirectDraw 0xFFFFFFFFFFFFFFF0 0x1010) [basePacket] drawPacket
        DRAW_INDIRECT := by
  refine ⟨by decide +kernel, ?_⟩
  intro h
  have hdecode : IndirectDraw.decode DRAW_INDIRECT
      (wordsOf (bodyBytes (oneIndirectDraw 0xFFFFFFFFFFFFFFF0 0x1010) drawPacket)) =
        .ok (drawPast 0x1010) := rfl
  have hbase : indirectBase (oneIndirectDraw 0xFFFFFFFFFFFFFFF0 0x1010) drawPacket.offset =
      some 0xFFFFFFFFFFFFFFF0 := by decide +kernel
  have hwrapped := (h.exact _ _ hdecode hbase).1
  revert hwrapped
  decide

end Orbistoun.Gpu.Cp
