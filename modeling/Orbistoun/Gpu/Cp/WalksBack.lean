import Orbistoun.Gpu.Cp.Build
import Orbistoun.Gpu.Cp.Spans

/-! # What the builders write walks back

A header read back gives its packet when its count field holds the body. Then words built one
packet behind another are walked one packet behind another, and where a field does not hold a
body the walk takes the first such packet for one of another length.
-/

namespace Orbistoun.Gpu.Cp.Build

/-! ## Headers -/

def headerWord (count opcode : Nat) : Nat := 3 <<< 30 ||| (count <<< 16) % 2 ^ 32 ||| opcode <<< 8

theorem toNat_commandHeader (opcode : UInt8) (body : UInt32) :
    (commandHeader opcode body).toNat = headerWord (body - 1).toNat opcode.toNat := by
  have hop : opcode.toNat <<< 8 % 2 ^ 32 = opcode.toNat <<< 8 := by
    have := opcode.toNat_lt
    rw [Nat.shiftLeft_eq]
    apply Nat.mod_eq_of_lt
    omega
  unfold commandHeader headerWord
  rw [UInt32.toNat_or, UInt32.toNat_or, UInt32.toNat_shiftLeft, UInt32.toNat_shiftLeft,
    UInt32.toNat_shiftLeft, UInt8.toNat_toUInt32]
  show _ ||| opcode.toNat <<< 8 % 2 ^ 32 = _
  rw [hop]
  rfl

variable {count opcode : Nat}

theorem testBit_headerWord (i : Nat) : (headerWord count opcode).testBit i =
    (decide (30 ≤ i) && Nat.testBit 3 (i - 30) ||
      (decide (i < 32) && (decide (16 ≤ i) && count.testBit (i - 16))) ||
        (decide (8 ≤ i) && opcode.testBit (i - 8))) := by
  simp only [headerWord, Nat.testBit_or, Nat.testBit_shiftLeft, Nat.testBit_mod_two_pow]

theorem headerWord_type : (headerWord count opcode >>> 30) &&& 3 = 3 := by
  apply Nat.eq_of_testBit_eq
  intro i
  rw [Nat.testBit_and, Nat.testBit_shiftRight, testBit_headerWord, Nat.add_sub_cancel_left]
  cases Nat.testBit 3 i with
  | false => rw [Bool.and_false]
  | true => simp

theorem headerWord_count (hop : opcode < 2 ^ 8) :
    (headerWord count opcode >>> 16) &&& 0x3FFF = count % 2 ^ 14 := by
  apply Nat.eq_of_testBit_eq
  intro i
  have hhigh : opcode.testBit (16 + i - 8) = false :=
    Nat.testBit_lt_two_pow (lt_of_lt_of_le hop (Nat.pow_le_pow_right (by decide) (by omega)))
  rw [show (0x3FFF : Nat) = 2 ^ 14 - 1 from rfl, Nat.and_two_pow_sub_one_eq_mod,
    Nat.testBit_mod_two_pow, Nat.testBit_mod_two_pow, Nat.testBit_shiftRight, testBit_headerWord,
    hhigh, Nat.add_sub_cancel_left]
  by_cases hi : i < 14
  · simp [hi, show ¬ 30 ≤ 16 + i by omega, show 16 + i < 32 by omega]
  · simp [hi]

theorem headerWord_opcode (hop : opcode < 2 ^ 8) :
    (headerWord count opcode >>> 8) &&& 0xFF = opcode := by
  apply Nat.eq_of_testBit_eq
  intro i
  rw [show (0xFF : Nat) = 2 ^ 8 - 1 from rfl, Nat.and_two_pow_sub_one_eq_mod,
    Nat.testBit_mod_two_pow, Nat.testBit_shiftRight, testBit_headerWord, Nat.add_sub_cancel_left]
  by_cases hi : i < 8
  · simp [hi, show ¬ 30 ≤ 8 + i by omega, show ¬ 16 ≤ 8 + i by omega]
  · have hhigh : opcode.testBit i = false :=
      Nat.testBit_lt_two_pow (lt_of_lt_of_le hop (Nat.pow_le_pow_right (by decide) (by omega)))
    simp [hi, hhigh]

/-- A command's header read back: its opcode, and a body of as many dwords as its count field
gives. -/
theorem kindAndLength_commandHeader (opcode : UInt8) (body : UInt32) :
    kindAndLength (commandHeader opcode body).toNat = (.command opcode.toNat,
      4 + (if (body - 1).toNat % 2 ^ 14 = 0x3FFF then 0 else (body - 1).toNat % 2 ^ 14 + 1) * 4) := by
  have hop := opcode.toNat_lt
  rw [toNat_commandHeader]
  unfold kindAndLength
  rw [headerWord_type, headerWord_opcode hop]
  unfold bodyDwords
  rw [headerWord_count hop]
  rfl

/-- The count field holds every body of at most `0x3FFF` dwords, and no other. -/
theorem kindAndLength_eq_iff (opcode : UInt8) (body : UInt32) :
    kindAndLength (commandHeader opcode body).toNat = (.command opcode.toNat, 4 + 4 * body.toNat) ↔
      body.toNat ≤ 0x3FFF := by
  have hlt := body.toNat_lt
  have hpred : (body - 1).toNat = if body.toNat = 0 then 2 ^ 32 - 1 else body.toNat - 1 := by
    rw [UInt32.toNat_sub]
    show (2 ^ 32 - 1 + body.toNat) % 2 ^ 32 = _
    split <;> omega
  rw [kindAndLength_commandHeader, hpred, Prod.mk.injEq]
  constructor
  · rintro ⟨-, hlen⟩
    split at hlen
    · omega
    · split at hlen <;> omega
  · intro hle
    refine ⟨rfl, ?_⟩
    split
    · split <;> omega
    · split <;> omega

/-! ## Words that read as packets -/

/-- The words are the packets, one behind another. -/
inductive Reads : List UInt32 → List Part → Prop where
  | nil : Reads [] []
  | cons {header : UInt32} {body rest : List UInt32} {kind : PacketKind} {parts : List Part} :
      kindAndLength header.toNat = (kind, 4 + 4 * body.length) → Reads rest parts →
        Reads (header :: body ++ rest) (⟨kind, body.length⟩ :: parts)

theorem Reads.one {header : UInt32} {body : List UInt32} {kind : PacketKind} {n : Nat}
    (hlength : body.length = n) (h : kindAndLength header.toNat = (kind, 4 + 4 * n)) :
    Reads (header :: body) [⟨kind, n⟩] := by
  subst hlength
  have hread := Reads.cons h .nil
  rw [List.append_nil] at hread
  exact hread

theorem reads_command (opcode : UInt8) (bodyDwords : UInt32) {body : List UInt32}
    (hlength : body.length = bodyDwords.toNat) (h : bodyDwords.toNat ≤ 0x3FFF) :
    Reads (commandHeader opcode bodyDwords :: body) [.command opcode bodyDwords.toNat] :=
  .one hlength ((kindAndLength_eq_iff opcode bodyDwords).mpr h)

theorem Reads.append {words words' : List UInt32} {parts parts' : List Part}
    (h : Reads words parts) (h' : Reads words' parts') :
    Reads (words ++ words') (parts ++ parts') := by
  induction h with
  | nil => exact h'
  | cons hheader _ ih =>
      rw [List.append_assoc]
      exact .cons hheader ih

/-- A call whose packets all fit the count field of a header. -/
def Call.Fits : Call → Prop
  | .reservation _ bodyDwords => bodyDwords.toNat ≤ 0x3FFF
  | .setShRegisterRange _ values => values.length < 0x3FFF ∨ 2 ^ 32 ≤ values.length + 1
  | _ => True

theorem reads_waitRegMem (a : Fin 11 → UInt64) :
    Reads (waitRegMem a) (Call.waitRegMem a).parts := by
  have hmarker : ∀ value, Reads [0xc0027904, MARKER_REGISTER, value, (a 4).toUInt32]
      [.command SET_UCONFIG_REG 3] := fun value => .one rfl (by decide)
  have hrestore : Reads [MARKER_HEADER, MARKER_REGISTER, 0xc8000000]
      [.command SET_UCONFIG_REG 2] := .one rfl (by decide)
  unfold waitRegMem
  dsimp only [Call.parts]
  split
  · apply ((hmarker _).append (reads_command WAIT_REG_MEM64 8 _ (by decide))).append hrestore
    rfl
  · apply ((hmarker _).append (reads_command WAIT_REG_MEM 6 _ (by decide))).append hrestore
    rfl

theorem Call.reads {c : Call} (h : c.Fits) : Reads c.words c.parts := by
  cases c with
  | filler => exact .one rfl (by decide)
  | dispatchDirect => exact .one rfl (by decide)
  | agcDispatchDirect => exact .one rfl (by decide)
  | reservation opcode bodyDwords =>
      exact reads_command opcode bodyDwords List.length_replicate h
  | markerSkeleton => exact .one rfl (by decide)
  | waitRegMem a => exact reads_waitRegMem a
  | resetQueueSkeleton =>
      have hnop : Reads [0xffff1000] [.command NOP 0] := .one rfl (by decide)
      have hfour : Reads [0xc0027904, 0, 0, 0] [.command SET_UCONFIG_REG 3] := .one rfl (by decide)
      have hthree : Reads [MARKER_HEADER, 0, 0] [.command SET_UCONFIG_REG 2] :=
        .one rfl (by decide)
      exact hnop.append (hfour.append hthree)
  | setRegistersIndirect opcode table count =>
      exact reads_command opcode 4 rfl (by decide)
  | setCxRegistersIndirect => exact .one rfl (by decide)
  | nop => exact .one rfl (by decide)
  | acquireMemSkeleton => exact .one rfl (by decide)
  | releaseMem => exact .one rfl (by decide)
  | dmaData => exact .one rfl (by decide)
  | setBaseIndirectArgs shaderType address =>
      have hbit : shaderType &&& 1 = 0 ∨ shaderType &&& 1 = 1 := by
        have hlow : (shaderType &&& 1).toNat = shaderType.toNat % 2 := by
          rw [UInt32.toNat_and]
          exact Nat.and_one_is_mod _
        rcases Nat.mod_two_eq_zero_or_one shaderType.toNat with hzero | hone
        · exact .inl (UInt32.toNat_inj.mp (hlow.trans hzero))
        · exact .inr (UInt32.toNat_inj.mp (hlow.trans hone))
      have hheader : kindAndLength (commandHeader SET_BASE 3 |||
          ((shaderType &&& 1) <<< (1 : UInt32))).toNat = (.command SET_BASE.toNat, 4 + 4 * 3) := by
        rcases hbit with hbit | hbit
        · rw [hbit]
          decide
        · rw [hbit]
          decide
      exact .one rfl hheader
  | dispatchIndirectOffset => exact .one rfl (by decide)
  | dispatchIndirectArgs => exact .one rfl (by decide)
  | drawIndirect => exact .one rfl (by decide)
  | drawIndexIndirect => exact .one rfl (by decide)
  | drawIndirectMulti indexed draw modifier =>
      have hbegin : ∀ value, Reads [MARKER_HEADER, MARKER_REGISTER, value]
          [.command SET_UCONFIG_REG 2] := fun value => .one rfl (by decide)
      have hdraw : ∀ opcode a b c d e f g h i, Reads [commandHeader opcode 9, a, b, c, d, e, f, g,
          h, i] [.command opcode 9] := fun opcode a b c d e f g h i =>
        reads_command opcode 9 rfl (by decide)
      cases indexed
      · exact (hbegin _).append ((hdraw _ _ _ _ _ _ _ _ _ _).append (hbegin _))
      · exact (hbegin _).append ((hdraw _ _ _ _ _ _ _ _ _ _).append (hbegin _))
  | eventWrite => exact .one rfl (by decide)
  | setIndexCount => exact .one rfl (by decide)
  | setNumInstances => exact .one rfl (by decide)
  | drawIndexAuto => exact .one rfl (by decide)
  | setIndexBase => exact .one rfl (by decide)
  | setContextRegister => exact .one rfl (by decide)
  | setUconfigRegister => exact .one rfl (by decide)
  | setShRegisterRange offset values =>
      dsimp only [Call.words, Call.parts, Build.setShRegisterRange]
      split
      · exact .nil
      · split
        · next hlt =>
          have hbody : (UInt32.ofNat (values.length + 1)).toNat = values.length + 1 :=
            UInt32.toNat_ofNat_of_lt' hlt
          have hfits := kindAndLength_eq_iff SET_SH_REG (UInt32.ofNat (values.length + 1))
          rw [hbody] at hfits
          have hshort : values.length + 1 ≤ 0x3FFF := by
            rcases h with hshort | hlong
            · omega
            · omega
          exact .one rfl (hfits.mpr hshort)
        · exact .nil
  | setIndexSize => exact .one rfl (by decide)
  | drawIndex2 => exact .one rfl (by decide)

/-! ## The walk -/

theorem length_bytesOf (words : List UInt32) : (bytesOf words).length = 4 * words.length := by
  induction words with
  | nil => rfl
  | cons word words ih =>
      rw [bytesOf, List.flatMap_cons, List.length_append, length_toLeBytes, ← bytesOf, ih,
        List.length_cons]
      omega

theorem bytesOf_append (words words' : List UInt32) :
    bytesOf (words ++ words') = bytesOf words ++ bytesOf words' := List.flatMap_append

theorem bytesOf_cons (word : UInt32) (words : List UInt32) :
    bytesOf (word :: words) = toLeBytes 4 word.toNat ++ bytesOf words := List.flatMap_cons ..

theorem fromLeBytes_toLeBytes {value : Nat} (h : value < 2 ^ 32) :
    fromLeBytes (toLeBytes 4 value) = value := by
  simp only [toLeBytes, fromLeBytes, UInt8.toNat_ofNat']
  omega

/-- What is compared of a packet: its kind, its offset and its length. -/
def view (p : Packet) : PacketKind × Nat × Nat := (p.kind, p.offset, p.length)

/-- An offset as the walk records it. -/
def clamp (e : PacketKind × Nat × Nat) : PacketKind × Nat × Nat := (e.1, min e.2.1 u32Max, e.2.2)

/-- The walk takes a packet off the front of the words that are one. -/
theorem walkLoop_packet {turns offset : Nat} {header : UInt32} {body : List UInt32}
    {kind : PacketKind} (h : kindAndLength header.toNat = (kind, 4 + 4 * body.length))
    (rest : List Byte) : walkLoop (turns + 1) offset (bytesOf (header :: body) ++ rest) =
      (packetAt offset header.toNat ::
          (walkLoop turns (offset + (4 + 4 * body.length)) rest).1,
        (walkLoop turns (offset + (4 + 4 * body.length)) rest).2) := by
  have hlength : (packetAt offset header.toNat).length = 4 + 4 * body.length := congrArg Prod.snd h
  have hword := fromLeBytes_toLeBytes header.toNat_lt
  have hbytes : (bytesOf (header :: body)).length = 4 + 4 * body.length := by
    rw [length_bytesOf, List.length_cons]
    omega
  have hdrop : (bytesOf (header :: body) ++ rest).drop (4 + 4 * body.length) = rest := by
    rw [← hbytes, List.drop_left]
  have hle : ¬ (bytesOf (header :: body) ++ rest).length < 4 + 4 * body.length := by
    rw [List.length_append, hbytes]
    omega
  rw [bytesOf_cons] at hdrop hle ⊢
  simp only [toLeBytes, List.cons_append, List.nil_append] at hdrop hle hword ⊢
  rw [walkLoop_succ, hword]
  dsimp only
  rw [hlength, if_neg hle, hdrop]

theorem walkLoop_head (turns offset : Nat) (header : UInt32) (body : List UInt32)
    (rest : List Byte) : ∃ packets overran,
      walkLoop (turns + 1) offset (bytesOf (header :: body) ++ rest) =
        (packetAt offset header.toNat :: packets, overran) := by
  have hword := fromLeBytes_toLeBytes header.toNat_lt
  rw [bytesOf_cons]
  simp only [toLeBytes, List.cons_append, List.nil_append] at hword ⊢
  rw [walkLoop_succ, hword]
  dsimp only
  split
  · exact ⟨_, _, rfl⟩
  · exact ⟨_, _, rfl⟩

theorem walkLoop_nil (turns offset : Nat) : walkLoop turns offset [] = ([], false) := by
  cases turns with
  | zero => rw [walkLoop]; simp
  | succ turns => rw [walkLoop]; simp

def ends (parts : List Part) : Nat := (parts.map (fun p => 4 + 4 * p.body)).sum

theorem ends_cons (p : Part) (parts : List Part) :
    ends (p :: parts) = (4 + 4 * p.body) + ends parts := rfl

theorem laid_append (at_ : Nat) (parts parts' : List Part) :
    laid at_ (parts ++ parts') = laid at_ parts ++ laid (at_ + ends parts) parts' := by
  induction parts generalizing at_ with
  | nil => rfl
  | cons p parts ih =>
      rw [List.cons_append, laid, laid, ih, ends_cons, List.cons_append, Nat.add_assoc]

theorem Reads.ends {words : List UInt32} {parts : List Part} (h : Reads words parts) :
    ends parts = (bytesOf words).length := by
  induction h with
  | nil => rfl
  | cons hheader _ ih =>
      rw [ends_cons, ih, length_bytesOf, length_bytesOf, List.length_append, List.length_cons]
      dsimp only
      omega

/-- The walk of words that read as packets takes those packets, and goes on behind them. -/
theorem walkLoop_reads {words : List UInt32} {parts : List Part} (h : Reads words parts)
    {turns : Nat} (offset : Nat) {rest : List Byte} (hturns : (bytesOf words).length + rest.length ≤ turns) :
    ∃ turns', rest.length ≤ turns' ∧
      (walkLoop turns offset (bytesOf words ++ rest)).1.map view =
        (laid offset parts).map clamp ++
          (walkLoop turns' (offset + ends parts) rest).1.map view ∧
      (walkLoop turns offset (bytesOf words ++ rest)).2 =
        (walkLoop turns' (offset + ends parts) rest).2 := by
  induction h generalizing turns offset with
  | nil => exact ⟨turns, (Nat.le_add_left _ _).trans hturns, rfl, rfl⟩
  | @cons header body words kind parts hheader _ ih =>
      rw [bytesOf_append, List.length_append, length_bytesOf, List.length_cons] at hturns
      obtain ⟨turns, rfl⟩ : ∃ n, turns = n + 1 := ⟨turns - 1, by omega⟩
      have hends : offset + (4 + 4 * body.length) + ends parts =
          offset + ends (⟨kind, body.length⟩ :: parts) := by
        rw [Nat.add_assoc]
        rfl
      obtain ⟨turns', hle, hpackets, hover⟩ :=
        ih (offset + (4 + 4 * body.length)) (show _ ≤ turns by omega)
      rw [hends] at hpackets hover
      rw [bytesOf_append, List.append_assoc, walkLoop_packet hheader]
      refine ⟨turns', hle, ?_, hover⟩
      rw [List.map_cons, hpackets, laid, List.map_cons, List.cons_append]
      congr 1
      show (_, _, _) = (_, _, _)
      rw [show (packetAt offset header.toNat).kind = kind from congrArg Prod.fst hheader,
        show (packetAt offset header.toNat).length = 4 + 4 * body.length from
          congrArg Prod.snd hheader]
      rfl

/-! ## Calls that do not fit -/

theorem Call.misread {c : Call} (h : ¬ c.Fits) : ∃ header body kind n, c.words = header :: body ∧
    c.parts = [⟨kind, n⟩] ∧ (kindAndLength header.toNat).2 ≠ 4 + 4 * n := by
  have hcommand : ∀ (opcode : UInt8) (bodyDwords : UInt32), ¬ bodyDwords.toNat ≤ 0x3FFF →
      (kindAndLength (commandHeader opcode bodyDwords).toNat).2 ≠ 4 + 4 * bodyDwords.toNat := by
    intro opcode bodyDwords hlong hlength
    apply hlong
    rw [← kindAndLength_eq_iff opcode bodyDwords]
    refine Prod.ext ?_ hlength
    rw [kindAndLength_commandHeader]
  cases c with
  | reservation opcode bodyDwords =>
      exact ⟨_, _, _, _, rfl, rfl, hcommand opcode bodyDwords h⟩
  | setShRegisterRange offset values =>
      have hlong : ¬ (values.length < 0x3FFF ∨ 2 ^ 32 ≤ values.length + 1) := h
      have hlt : values.length + 1 < 2 ^ 32 := by omega
      have hne : ¬ values.isEmpty = true := by
        intro hempty
        rw [List.isEmpty_iff.mp hempty] at hlong
        exact hlong (.inl (by decide))
      have hbody : (UInt32.ofNat (values.length + 1)).toNat = values.length + 1 :=
        UInt32.toNat_ofNat_of_lt' hlt
      have hmis := hcommand SET_SH_REG (UInt32.ofNat (values.length + 1)) (by rw [hbody]; omega)
      rw [hbody] at hmis
      dsimp only [Call.words, Call.parts, Build.setShRegisterRange]
      rw [if_neg hne, if_neg hne, if_pos hlt, if_pos hlt]
      exact ⟨_, _, _, _, rfl, rfl, hmis⟩
  | _ => exact absurd trivial h

theorem stream_cons (c : Call) (calls : List Call) :
    stream (c :: calls) = bytesOf c.words ++ stream calls := by
  rw [stream, List.flatMap_cons, bytesOf_append, ← stream]

theorem fits_of_walked {calls : List Call} {turns offset : Nat}
    (hturns : (stream calls).length ≤ turns)
    (h : (walkLoop turns offset (stream calls)).1.map view =
      laid offset (calls.flatMap Call.parts)) : ∀ c ∈ calls, c.Fits := by
  induction calls generalizing turns offset with
  | nil =>
      intro c hc
      cases hc
  | cons c calls ih =>
      rw [stream_cons, List.length_append] at hturns
      rw [stream_cons, List.flatMap_cons, laid_append] at h
      have hfits : c.Fits := by
        by_contra hnot
        obtain ⟨header, body, kind, n, hwords, hparts, hmis⟩ := Call.misread hnot
        rw [hwords, length_bytesOf, List.length_cons] at hturns
        obtain ⟨turns, rfl⟩ : ∃ n, turns = n + 1 := ⟨turns - 1, by omega⟩
        obtain ⟨packets, overran, hhead⟩ := walkLoop_head turns offset header body (stream calls)
        rw [hwords, hparts, hhead, List.map_cons, laid, List.cons_append] at h
        have hlength := congrArg (fun e => e.2.2) (List.cons_eq_cons.mp h).1
        exact hmis hlength
      obtain ⟨turns', hturns', hpackets, -⟩ :=
        walkLoop_reads (Call.reads hfits) offset hturns
      rw [hpackets] at h
      have hrest := List.append_inj_right h (by rw [List.length_map])
      intro d hd
      rcases List.mem_cons.mp hd with rfl | hd
      · exact hfits
      · exact ih hturns' hrest d hd

theorem reads_stream {calls : List Call} (h : ∀ c ∈ calls, c.Fits) :
    Reads (calls.flatMap Call.words) (calls.flatMap Call.parts) := by
  induction calls with
  | nil => exact .nil
  | cons c calls ih =>
      rw [List.flatMap_cons, List.flatMap_cons]
      exact (Call.reads (h c List.mem_cons_self)).append
        (ih (fun d hd => h d (List.mem_cons_of_mem c hd)))

/-- What calls that fit wrote is walked to its end, one packet behind another. -/
theorem walk_of_fits {calls : List Call} (h : ∀ c ∈ calls, c.Fits) :
    (walkLoop (stream calls).length 0 (stream calls)).1.map view =
        (laid 0 (calls.flatMap Call.parts)).map clamp ∧
      (walkLoop (stream calls).length 0 (stream calls)).2 = false := by
  have hturns : (bytesOf (calls.flatMap Call.words)).length + ([] : List Byte).length ≤
      (stream calls).length := le_refl _
  obtain ⟨turns', -, hpackets, hover⟩ := walkLoop_reads (reads_stream h) 0 hturns
  rw [List.append_nil, walkLoop_nil, List.map_nil, List.append_nil] at hpackets
  rw [List.append_nil, walkLoop_nil] at hover
  exact ⟨hpackets, hover⟩

theorem Call.not_reserved {c : Call} {p : Part} (hp : p ∈ c.parts) : p.kind ≠ .reserved := by
  cases c <;> grind [Call.parts, Part.command]

theorem map_eq_self {α : Type} {f : α → α} {l : List α} : l.map f = l ↔ ∀ x ∈ l, f x = x := by
  have hiff := List.map_inj_left (l := l) (f := f) (g := id)
  rw [List.map_id] at hiff
  exact hiff

theorem sum_laid (at_ : Nat) (parts : List Part) :
    ((laid at_ parts).map (fun e => e.2.2)).sum = ends parts := by
  induction parts generalizing at_ with
  | nil => rfl
  | cons p parts ih => rw [laid, List.map_cons, List.sum_cons, ih, ends_cons]

theorem kind_of_mem_laid {at_ : Nat} {parts : List Part} {e : PacketKind × Nat × Nat}
    (he : e ∈ laid at_ parts) : ∃ p ∈ parts, e.1 = p.kind := by
  induction parts generalizing at_ with
  | nil => cases he
  | cons p parts ih =>
      rw [laid] at he
      rcases List.mem_cons.mp he with rfl | he
      · exact ⟨p, List.mem_cons_self, rfl⟩
      · obtain ⟨q, hq, heq⟩ := ih he
        exact ⟨q, List.mem_cons_of_mem p hq, heq⟩

/-- What the builders wrote walks back exactly when no body is too long for the count field and
every packet starts where an offset can say. -/
theorem walksBack_iff (calls : List Call) : WalksBack calls ↔
    (∀ c ∈ calls, c.Fits) ∧ ∀ e ∈ laid 0 (calls.flatMap Call.parts), e.2.1 ≤ u32Max := by
  constructor
  · rintro ⟨hpackets, -, -⟩
    have hpackets : (walkLoop (stream calls).length 0 (stream calls)).1.map view =
        laid 0 (calls.flatMap Call.parts) := hpackets
    have hfits := fits_of_walked (le_refl _) hpackets
    refine ⟨hfits, fun e he => ?_⟩
    rw [(walk_of_fits hfits).1] at hpackets
    have hclamp : clamp e = e := map_eq_self.mp hpackets e he
    have hmin : min e.2.1 u32Max = e.2.1 := congrArg (fun e => e.2.1) hclamp
    exact min_eq_left_iff.mp hmin
  · rintro ⟨hfits, hstarts⟩
    obtain ⟨hpackets, hover⟩ := walk_of_fits hfits
    have hclamp : (laid 0 (calls.flatMap Call.parts)).map clamp =
        laid 0 (calls.flatMap Call.parts) := by
      apply map_eq_self.mpr
      intro e he
      show (_, _, _) = (_, _, _)
      rw [min_eq_left (hstarts e he)]
    rw [hclamp] at hpackets
    have hends := (reads_stream hfits).ends
    refine ⟨hpackets, ?_, ?_⟩
    · have hnone : (walkLoop (stream calls).length 0 (stream calls)).1.any
          (fun p => p.kind == .reserved) = false := by
        rw [List.any_eq_false]
        intro p hp hkind
        have hview : view p ∈ laid 0 (calls.flatMap Call.parts) :=
          hpackets ▸ List.mem_map_of_mem hp
        obtain ⟨q, hq, hkinds⟩ := kind_of_mem_laid hview
        obtain ⟨c, -, hc⟩ := List.mem_flatMap.mp hq
        exact Call.not_reserved hc (hkinds.symm.trans (beq_iff_eq.mp hkind))
      have htrailing : (stream calls).length % 4 = 0 := by
        rw [stream, length_bytesOf]
        exact Nat.mul_mod_right 4 _
      unfold PacketWalk.isTrustworthy walk
      dsimp only
      rw [hnone, hover, htrailing]
      rfl
    · have hlengths : (walk (stream calls)).packets.map Packet.length =
          ((walk (stream calls)).packets.map view).map (fun e => e.2.2) := by
        rw [List.map_map]
        rfl
      have hpackets : (walk (stream calls)).packets.map view =
          laid 0 (calls.flatMap Call.parts) := hpackets
      rw [hlengths, hpackets, sum_laid, hends]
      rfl

theorem not_walksBack_of_long (offset : UInt16) {values : List UInt32}
    (hlong : 0x3FFF ≤ values.length) (hcount : values.length + 1 < 2 ^ 32) :
    ¬ WalksBack [.setShRegisterRange offset values] := by
  intro h
  have hfits : values.length < 0x3FFF ∨ 2 ^ 32 ≤ values.length + 1 :=
    fits_of_walked (le_refl _) h.1 _ List.mem_cons_self
  omega

/-- A run of `0x4000` registers wraps the count field: the walk takes its header for that of a
packet with one body dword. -/
theorem long_run_misread : ¬ ∀ calls, WalksBack calls := by
  intro h
  have hlength : (List.replicate 0x4000 (0 : UInt32)).length = 0x4000 := List.length_replicate
  apply not_walksBack_of_long 8 _ _ (h _)
  · exact List.replicate 0x4000 0
  · rw [hlength]
    decide
  · rw [hlength]
    decide

example : WalksBack [.nop, .setShRegisterRange 8 [1, 2], .filler, .resetQueueSkeleton] := by
  unfold WalksBack
  decide +kernel

end Orbistoun.Gpu.Cp.Build
