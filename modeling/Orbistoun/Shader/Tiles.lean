import Orbistoun.Lib.Laid
import Orbistoun.Shader.Decode

/-! # A decoded program tiles what was consumed

Every instruction starts where the one before it ends and is a positive number of dwords long,
and a program decoded to its end is decoded alike whatever follows it. Both are of a walk no
length of which overflows; there both builds decode alike.
-/

namespace Orbistoun.Shader

open Orbistoun.Lib Overflow

/-! ## Both builds decode alike -/

theorem agrees_extract (f : OperandField) (word : UInt32) :
    Agrees (fun o => f.extract o word) :=
  (agrees_shr word f.shift).bind (fun _ => Agrees.const _)

theorem agrees_selectsLiteral (f : OperandField) (words : List UInt32) :
    Agrees (fun o => f.selectsLiteral o words) := by
  unfold OperandField.selectsLiteral
  cases words[f.word]? with
  | none => exact Agrees.const _
  | some word => exact (agrees_extract f word).bind (fun _ => Agrees.const _)

theorem agrees_opcodeOf (e : Encoding) (words : List UInt32) :
    Agrees (fun o => e.opcodeOf o words) := by
  unfold Encoding.opcodeOf
  apply Agrees.bind
  · unfold Encoding.opcodeLow
    cases words[0]? with
    | none => exact Agrees.const _
    | some word => exact agrees_extract e.opcode word
  · intro low
    cases e.opcodeExtension with
    | none => exact Agrees.const _
    | some field =>
      dsimp only
      cases words[field.word]? with
      | none => exact Agrees.const _
      | some word =>
        apply (agrees_extract field word).bind
        intro high
        exact (agrees_shl high e.opcode.width).bind (fun _ => Agrees.const _)

theorem agrees_modifierSelected (e : Encoding) (words : List UInt32) :
    Agrees (fun o => e.modifierSelected o words) := by
  apply Agrees.findSomeM?
  intro field
  cases words[field.word]? with
  | none => exact Agrees.const _
  | some word => exact (agrees_extract field word).bind (fun _ => Agrees.const _)

theorem agrees_extraBytes (e : Encoding) (words : List UInt32) :
    Agrees (fun o => e.extraBytes o words) := by
  unfold Encoding.extraBytes
  cases e.extraDwords with
  | none => exact Agrees.const _
  | some field =>
    dsimp only
    cases words[field.word]? with
    | none => exact Agrees.const _
    | some word => exact (agrees_extract field word).bind (fun count => agrees_mul count 4)

theorem agrees_lengthBytes (e : Encoding) (words : List UInt32) :
    Agrees (fun o => e.lengthBytes o words) := by
  apply (Agrees.anyM (fun field => agrees_selectsLiteral field words) e.literalOperands).bind
  intro literal
  apply (agrees_extraBytes e words).bind
  intro extra
  apply (agrees_modifierSelected e words).bind
  intro modifier
  exact (agrees_add e.widthBytes extra).bind (fun fixed => agrees_add fixed _)

theorem agrees_laidOut (slots : Option (List OperandSlot)) :
    Agrees (fun o => laidOut o slots) := by
  cases slots with
  | none => exact Agrees.const _
  | some slots =>
    unfold laidOut
    apply Agrees.bind
    · apply Agrees.mapM
      intro slot
      exact (agrees_add slot.word 1).bind (fun next => agrees_mul next 4)
    · intro ends
      exact Agrees.const _

theorem agrees_classify (t : OperandTable) (code : UInt32) (literal : Option UInt32) :
    Agrees (fun o => t.classify o code literal) := by
  unfold OperandTable.classify
  cases t.rangeFor code with
  | none => exact Agrees.const _
  | some range =>
    dsimp only
    cases range.kind with
    | sgpr | vgpr => exact (agrees_sub code _).map _
    | named | integer | negativeInteger | literal => exact Agrees.const _

variable {bytes : List UInt8} {offset : Nat} {word : UInt32} {table : EncodingTable}
  {operands : OperandTable} {index : UInt16} {found : Encoding}

theorem agrees_decodeSlot (literal : Option UInt32) (own : UInt32) (slot : OperandSlot) :
    Agrees (fun o => decodeSlot o bytes offset word operands literal own slot) := by
  unfold decodeSlot
  split
  · exact Agrees.const _
  · apply Agrees.bind
    · unfold sourceWord
      split
      · exact Agrees.const _
      · exact (agrees_mul slot.word 4).bind (fun _ => Agrees.const _)
    · intro read
      cases read with
      | none => exact Agrees.const _
      | some w =>
        apply Agrees.bind
        · exact (agrees_shr w slot.shift).bind (fun _ => Agrees.const _)
        · intro code
          cases slot.kind with
          | source => exact agrees_classify operands code literal
          | vgpr | immediate | implicit => exact Agrees.const _

theorem agrees_describe :
    Agrees (fun o => describe o bytes offset word table operands index found) := by
  apply (agrees_opcodeOf found _).bind
  intro opcode
  apply (agrees_laidOut _).bind
  intro laid
  apply (agrees_lengthBytes found _).bind
  intro length
  apply (agrees_modifierSelected found _).bind
  intro modifier
  apply (Agrees.mapM (fun slot => agrees_decodeSlot _ _ slot) _).bind
  intro decoded
  exact Agrees.const _

theorem agrees_recognise (result : Decode) :
    Agrees (fun o => recognise o bytes offset word table operands result) := by
  unfold recognise
  cases table.lookup word with
  | none => exact Agrees.const _
  | some found => exact agrees_describe.bind (fun _ => Agrees.const _)

theorem agrees_visit (stopAtEnd : Bool) (w : Walk) :
    Agrees (fun o => visit o bytes table operands stopAtEnd w word) :=
  (agrees_recognise w.result).bind (fun _ => Agrees.const _)

theorem agrees_walk (stopAtEnd : Bool) (fuel : Nat) (w : Walk) :
    Agrees (fun o => walk o bytes table operands stopAtEnd fuel w) := by
  induction fuel generalizing w with
  | zero =>
    unfold walk
    exact Agrees.const _
  | succ fuel ih =>
    unfold walk
    cases readWord bytes w.offset with
    | none => exact Agrees.const _
    | some word =>
      apply (agrees_visit stopAtEnd w).bind
      intro out
      cases out with
      | inl w => exact ih w
      | inr out => exact Agrees.const _

/-! ## Reads inside the buffer -/

theorem readWord_append {bytes : List UInt8} {at_ : Nat} (suffix : List UInt8)
    (h : at_ + 4 ≤ bytes.length) : readWord (bytes ++ suffix) at_ = readWord bytes at_ := by
  unfold readWord
  rw [List.drop_append_of_le_length (by omega)]
  have hlength : 4 ≤ (bytes.drop at_).length := by rw [List.length_drop]; omega
  match hdrop : bytes.drop at_ with
  | [] | [_] | [_, _] | [_, _, _] => rw [hdrop] at hlength; simp at hlength
  | a :: b :: c :: d :: rest => rfl

theorem le_of_readWord {bytes : List UInt8} {at_ : Nat} {word : UInt32}
    (h : readWord bytes at_ = some word) : at_ + 4 ≤ bytes.length := by
  unfold readWord at h
  match hdrop : bytes.drop at_ with
  | [] | [_] | [_, _] | [_, _, _] => rw [hdrop] at h; cases h
  | a :: b :: c :: d :: rest =>
    have hlength := congrArg List.length hdrop
    simp only [List.length_drop, List.length_cons] at hlength
    omega

theorem readWords_append {bytes : List UInt8} (suffix : List UInt8) {at_ n : Nat}
    (h : at_ + 4 * n ≤ bytes.length) :
    readWords (bytes ++ suffix) at_ n = readWords bytes at_ n := by
  induction n generalizing at_ with
  | zero => rfl
  | succ n ih =>
    unfold readWords
    rw [readWord_append suffix (by omega), ih (by omega)]

/-! ## Lengths -/

theorem toNat_maxWord (a b : UInt32) : (maxWord a b).toNat = max a.toNat b.toNat := by
  unfold maxWord
  split <;> omega

theorem extraBytes_dvd {e : Encoding} {words : List UInt32} {extra : UInt32}
    (h : e.extraBytes .traps words = some extra) : 4 ∣ extra.toNat := by
  unfold Encoding.extraBytes at h
  split at h
  · cases h
    exact Nat.dvd_zero 4
  · split at h
    · cases h
      exact Nat.dvd_zero 4
    · obtain ⟨count, -, hmul⟩ := Option.bind_eq_some_iff.mp h
      rw [mul_traps hmul]
      exact Nat.dvd_mul_left 4 count.toNat

theorem lengthBytes_spec {e : Encoding} {words : List UInt32} {length : UInt32}
    (h : e.lengthBytes .traps words = some length) :
    ∃ more, length.toNat = e.widthBytes.toNat + more ∧ 4 ∣ more ∧
      ∀ modifier, e.modifierSelected .traps words = some modifier → modifier.isSome = true →
        4 ≤ more := by
  obtain ⟨literal, -, h⟩ := Option.bind_eq_some_iff.mp h
  obtain ⟨extra, hextra, h⟩ := Option.bind_eq_some_iff.mp h
  obtain ⟨modifier, hmodifier, h⟩ := Option.bind_eq_some_iff.mp h
  obtain ⟨fixed, hfixed, hlength⟩ := Option.bind_eq_some_iff.mp h
  have hdvd := extraBytes_dvd hextra
  rw [add_traps hlength, add_traps hfixed]
  by_cases hfour : (literal || modifier.isSome) = true
  · rw [if_pos hfour]
    apply Exists.intro (extra.toNat + 4)
    exact ⟨by rw [Nat.add_assoc]; rfl, Nat.dvd_add hdvd (Nat.dvd_refl 4), fun _ _ _ => by omega⟩
  · rw [if_neg hfour]
    apply Exists.intro extra.toNat
    apply And.intro rfl
    apply And.intro hdvd
    intro m hm hsome
    rw [hmodifier] at hm
    cases hm
    rw [hsome, Bool.or_true] at hfour
    exact absurd rfl hfour

theorem mem_of_mapM {α β : Type} {f : α → Option β} {l : List α} {l' : List β}
    (h : l.mapM f = some l') {b : β} (hb : b ∈ l') : ∃ a, f a = some b := by
  induction l generalizing l' with
  | nil =>
    cases h
    cases hb
  | cons a l ih =>
    rw [List.mapM_cons] at h
    obtain ⟨c, hc, h⟩ := Option.bind_eq_some_iff.mp h
    obtain ⟨cs, hcs, h⟩ := Option.bind_eq_some_iff.mp h
    cases h
    cases hb with
    | head => exact ⟨a, hc⟩
    | tail _ hb => exact ih hcs hb

theorem laidOut_dvd {slots : Option (List OperandSlot)} {laid : UInt32}
    (h : laidOut .traps slots = some laid) : 4 ∣ laid.toNat := by
  have hfold : ∀ (ends : List UInt32) (a : UInt32), 4 ∣ a.toNat → (∀ x ∈ ends, 4 ∣ x.toNat) →
      4 ∣ (ends.foldl maxWord a).toNat := by
    intro ends
    induction ends with
    | nil => exact fun a ha _ => ha
    | cons x ends ih =>
      intro a ha hends
      apply ih _ _ (fun y hy => hends y (List.mem_cons_of_mem x hy))
      unfold maxWord
      split
      · exact hends x List.mem_cons_self
      · exact ha
  unfold laidOut at h
  cases slots with
  | none =>
    cases h
    exact Nat.dvd_zero 4
  | some slots =>
    obtain ⟨ends, hends, h⟩ := Option.bind_eq_some_iff.mp h
    cases h
    apply hfold ends 0 (Nat.dvd_zero 4)
    intro x hx
    obtain ⟨slot, hslot⟩ := mem_of_mapM hends hx
    obtain ⟨next, -, hmul⟩ := Option.bind_eq_some_iff.mp hslot
    rw [mul_traps hmul]
    exact Nat.dvd_mul_left 4 next.toNat

/-! ## Reads of one instruction -/

/-- Two readings of an instruction's words with the family's fields alike. -/
def Alike (e : Encoding) (words words' : List UInt32) : Prop :=
  words[0]? = words'[0]? ∧ ∀ f ∈ e.fields, words[f.word]? = words'[f.word]?

namespace Alike

variable {e : Encoding} {words words' : List UInt32} (h : Alike e words words') (o : Overflow)

include h

theorem opcodeOf : e.opcodeOf o words = e.opcodeOf o words' := by
  unfold Encoding.opcodeOf Encoding.opcodeLow
  rw [h.1]
  cases hext : e.opcodeExtension with
  | none => rfl
  | some field =>
    have hfield : field ∈ e.fields := by simp [Encoding.fields, hext]
    dsimp only
    rw [h.2 field hfield]

theorem modifierSelected : e.modifierSelected o words = e.modifierSelected o words' := by
  unfold Encoding.modifierSelected
  have hfields : ∀ f ∈ e.modifierOperands, words[f.word]? = words'[f.word]? := by
    intro f hf
    exact h.2 f (by simp [Encoding.fields, hf])
  generalize e.modifierOperands = fields at hfields
  induction fields with
  | nil => rfl
  | cons f l ih =>
    simp only [List.findSomeM?]
    rw [hfields f List.mem_cons_self, ih (fun g hg => hfields g (List.mem_cons_of_mem f hg))]

theorem lengthBytes : e.lengthBytes o words = e.lengthBytes o words' := by
  have hextra : e.extraBytes o words = e.extraBytes o words' := by
    unfold Encoding.extraBytes
    cases hdwords : e.extraDwords with
    | none => rfl
    | some field =>
      have hfield : field ∈ e.fields := by simp [Encoding.fields, hdwords]
      dsimp only
      rw [h.2 field hfield]
  have hliteral : e.literalOperands.anyM (fun field => field.selectsLiteral o words) =
      e.literalOperands.anyM (fun field => field.selectsLiteral o words') := by
    have hfields : ∀ f ∈ e.literalOperands, words[f.word]? = words'[f.word]? := by
      intro f hf
      exact h.2 f (by simp [Encoding.fields, hf])
    generalize e.literalOperands = fields at hfields
    induction fields with
    | nil => rfl
    | cons f l ih =>
      simp only [List.anyM, OperandField.selectsLiteral]
      rw [hfields f List.mem_cons_self]
      congr 1
      funext b
      cases b with
      | true => rfl
      | false => exact ih (fun g hg => hfields g (List.mem_cons_of_mem f hg))
  unfold Encoding.lengthBytes
  rw [hliteral, hextra, h.modifierSelected o]

end Alike

theorem dvd_of_mod {w : UInt32} (h : w % 4 = 0) : 4 ∣ w.toNat := by
  have hmod := congrArg UInt32.toNat h
  rw [UInt32.toNat_mod] at hmod
  exact Nat.dvd_of_mod_eq_zero hmod

/-- An instruction of a family is dwords, the family's own among them. -/
theorem describe_length (hwhole : found.widthBytes % 4 = 0) {seen : Recognised}
    (h : describe .traps bytes offset word table operands index found = some seen) :
    4 ∣ seen.length.toNat ∧ found.widthBytes.toNat ≤ seen.length.toNat := by
  obtain ⟨opcode, -, h⟩ := Option.bind_eq_some_iff.mp h
  obtain ⟨laid, hlaid, h⟩ := Option.bind_eq_some_iff.mp h
  obtain ⟨length, hlength, h⟩ := Option.bind_eq_some_iff.mp h
  obtain ⟨modifier, -, h⟩ := Option.bind_eq_some_iff.mp h
  obtain ⟨decoded, -, h⟩ := Option.bind_eq_some_iff.mp h
  cases h
  obtain ⟨more, hmore, hdvd, -⟩ := lengthBytes_spec hlength
  have hlaid := laidOut_dvd hlaid
  have hwidth := dvd_of_mod hwhole
  show 4 ∣ (maxWord length laid).toNat ∧ _ ≤ (maxWord length laid).toNat
  rw [toNat_maxWord]
  omega

theorem describe_encoding {seen : Recognised}
    (h : describe .traps bytes offset word table operands index found = some seen) :
    seen.encoding = some index := by
  obtain ⟨_, -, h⟩ := Option.bind_eq_some_iff.mp h
  obtain ⟨_, -, h⟩ := Option.bind_eq_some_iff.mp h
  obtain ⟨_, -, h⟩ := Option.bind_eq_some_iff.mp h
  obtain ⟨_, -, h⟩ := Option.bind_eq_some_iff.mp h
  obtain ⟨_, -, h⟩ := Option.bind_eq_some_iff.mp h
  cases h
  rfl

/-- A family's fields are read alike with more bytes after, one dword wide or with the next
dword there already. -/
theorem alike_append (suffix : List UInt8) (hwidth : bytes.length < offset + 8 →
      found.widthBytes = 4 ∧ found.SelfContained) :
    Alike found (word :: (readWord bytes (offset + 4)).toList)
      (word :: (readWord (bytes ++ suffix) (offset + 4)).toList) := by
  by_cases hle : offset + 8 ≤ bytes.length
  · rw [readWord_append suffix (by omega)]
    exact ⟨rfl, fun _ _ => rfl⟩
  · obtain ⟨hfour, hself⟩ := hwidth (by omega)
    have hnone : readWord bytes (offset + 4) = none := by
      cases hread : readWord bytes (offset + 4) with
      | none => rfl
      | some w => exact absurd (le_of_readWord hread) (by omega)
    rw [hnone]
    apply And.intro rfl
    intro f hf
    have hone := hself hfour f hf
    match hword : f.word with
    | 0 => rfl
    | 1 => exact absurd hword hone
    | n + 2 => cases readWord (bytes ++ suffix) (offset + 4) <;> rfl

theorem decodeSlot_append (suffix : List UInt8) {own : UInt32} (hdvd : 4 ∣ own.toNat)
    (hown : offset + own.toNat ≤ bytes.length) (literal : Option UInt32) (slot : OperandSlot) :
    decodeSlot .traps (bytes ++ suffix) offset word operands literal own slot =
      decodeSlot .traps bytes offset word operands literal own slot := by
  have hsource : sourceWord .traps (bytes ++ suffix) offset word own slot =
      sourceWord .traps bytes offset word own slot := by
    unfold sourceWord
    split
    · rfl
    · cases hmul : Overflow.traps.mul slot.word 4 with
      | none => rfl
      | some place =>
        have hplace : place.toNat = slot.word.toNat * 4 := mul_traps hmul
        show some (if _ then _ else _) = some (if _ then _ else _)
        by_cases hlt : place.toNat < own.toNat
        · rw [if_pos hlt, if_pos hlt, readWord_append suffix (by omega)]
        · rw [if_neg hlt, if_neg hlt]
  unfold decodeSlot
  rw [hsource]

/-- A described instruction inside the buffer is the same with more bytes after. -/
theorem describe_append (suffix : List UInt8) {seen : Recognised}
    (hwhole : found.widthBytes ≠ 0 ∧ found.widthBytes % 4 = 0)
    (h : describe .traps bytes offset word table operands index found = some seen)
    (hfit : offset + seen.length.toNat ≤ bytes.length)
    (hself : bytes.length < offset + 8 → found.SelfContained) :
    describe .traps (bytes ++ suffix) offset word table operands index found = some seen := by
  obtain ⟨hdvd, hle⟩ := describe_length hwhole.2 h
  have hwidth := dvd_of_mod hwhole.2
  have hpos : 0 < found.widthBytes.toNat := by
    apply Nat.pos_of_ne_zero
    intro hzero
    exact hwhole.1 (UInt32.toNat.inj hzero)
  have halike : Alike found (word :: (readWord bytes (offset + 4)).toList)
      (word :: (readWord (bytes ++ suffix) (offset + 4)).toList) := by
    apply alike_append suffix
    intro hlt
    apply And.intro _ (hself hlt)
    apply UInt32.toNat.inj
    show found.widthBytes.toNat = 4
    omega
  obtain ⟨opcode, hopcode, h⟩ := Option.bind_eq_some_iff.mp h
  obtain ⟨laid, hlaid, h⟩ := Option.bind_eq_some_iff.mp h
  obtain ⟨length, hlength, h⟩ := Option.bind_eq_some_iff.mp h
  obtain ⟨modifier, hmodifier, h⟩ := Option.bind_eq_some_iff.mp h
  obtain ⟨decoded, hdecoded, h⟩ := Option.bind_eq_some_iff.mp h
  cases h
  have hlaid_dvd := laidOut_dvd hlaid
  obtain ⟨more, hmore, hmore_dvd, hmodified⟩ := lengthBytes_spec hlength
  change offset + (maxWord length laid).toNat ≤ bytes.length at hfit
  rw [toNat_maxWord] at hfit
  have hown : (maxWord found.widthBytes laid).toNat = max found.widthBytes.toNat laid.toNat :=
    toNat_maxWord _ _
  -- the dwords read past the family's own are the instruction's too
  have hliteral : (if found.widthBytes.toNat < (maxWord length laid).toNat ∧
        modifier.isSome = false then
        readWord (bytes ++ suffix) (offset + found.widthBytes.toNat) else none) =
      if found.widthBytes.toNat < (maxWord length laid).toNat ∧ modifier.isSome = false then
        readWord bytes (offset + found.widthBytes.toNat) else none := by
    split
    · next hlt =>
      rw [toNat_maxWord] at hlt
      exact readWord_append suffix (by omega)
    · rfl
  have hsecond : (if 8 ≤ found.widthBytes.toNat ∨ modifier.isSome = true then
        readWord (bytes ++ suffix) (offset + 4) else none) =
      if 8 ≤ found.widthBytes.toNat ∨ modifier.isSome = true then readWord bytes (offset + 4)
        else none := by
    split
    · next height =>
      have hfour := hmodified modifier hmodifier
      apply readWord_append suffix
      rcases height with height | hsome
      · omega
      · have := hfour hsome
        omega
    · rfl
  have hslots : ∀ literal, decodeSlot .traps (bytes ++ suffix) offset word operands literal
      (maxWord found.widthBytes laid) = decodeSlot .traps bytes offset word operands literal
        (maxWord found.widthBytes laid) := by
    intro literal
    funext slot
    exact decodeSlot_append suffix (by omega) (by omega) literal slot
  rw [halike.opcodeOf] at hopcode
  rw [halike.lengthBytes] at hlength
  rw [halike.modifierSelected] at hmodifier
  unfold describe
  simp only [hopcode, hlaid, hlength, hmodifier, Option.bind_eq_bind, Option.bind_some]
  rw [hliteral, hsecond, hslots, hdecoded]
  rfl

/-- A recognised instruction is dwords, and all it changes of the result is the mark of a desync. -/
theorem recognise_spec {result result' : Decode} {seen : Recognised}
    (h : recognise .traps bytes offset word table operands result = some (seen, result')) :
    4 ∣ seen.length.toNat ∧ 0 < seen.length.toNat ∧
      result'.instructions = result.instructions ∧ result'.overran = result.overran ∧
      ∀ index, seen.encoding = some index → ∃ found, table.lookup word = some (index, found) := by
  unfold recognise at h
  cases hlookup : table.lookup word with
  | none =>
    rw [hlookup] at h
    cases h
    exact ⟨Nat.dvd_refl 4, by decide, rfl, rfl, fun _ hindex => by cases hindex⟩
  | some entry =>
    obtain ⟨index, found⟩ := entry
    rw [hlookup] at h
    obtain ⟨described, hdescribed, hseen⟩ := Option.bind_eq_some_iff.mp h
    cases hseen
    obtain ⟨hne, hmod⟩ := table.whole found (EncodingTable.mem_of_lookup hlookup).1
    obtain ⟨hdvd, hle⟩ := describe_length hmod hdescribed
    have hpos : 0 < found.widthBytes.toNat :=
      Nat.pos_of_ne_zero (fun hzero => hne (UInt32.toNat.inj hzero))
    have hencoding : seen.encoding = some index := describe_encoding hdescribed
    apply And.intro hdvd
    apply And.intro (Nat.lt_of_lt_of_le hpos hle)
    apply And.intro rfl
    apply And.intro rfl
    intro i hi
    rw [hencoding] at hi
    cases hi
    exact ⟨found, rfl⟩

/-- An instruction inside the buffer is recognised alike with more bytes after. -/
theorem recognise_append (suffix : List UInt8) {result result' : Decode} {seen : Recognised}
    (h : recognise .traps bytes offset word table operands result = some (seen, result'))
    (hfit : offset + seen.length.toNat ≤ bytes.length)
    (hself : ∀ index found, table.lookup word = some (index, found) →
      bytes.length < offset + 8 → found.SelfContained) :
    recognise .traps (bytes ++ suffix) offset word table operands result =
      some (seen, result') := by
  unfold recognise at h ⊢
  cases hlookup : table.lookup word with
  | none =>
    rw [hlookup] at h
    exact h
  | some entry =>
    obtain ⟨index, found⟩ := entry
    rw [hlookup] at h
    obtain ⟨described, hdescribed, hseen⟩ := Option.bind_eq_some_iff.mp h
    cases hseen
    have hwhole := table.whole found (EncodingTable.mem_of_lookup hlookup).1
    have hmore := describe_append suffix hwhole hdescribed hfit (hself index found hlookup)
    exact Option.bind_eq_some_iff.mpr ⟨seen, hmore, rfl⟩

/-! ## The walk -/

/-- An instruction that starts at a place, as its field holds it, and is some whole dwords. -/
def StartsAt (i : Instruction) (place : Nat) : Prop :=
  i.offset = saturate place ∧ 4 ∣ i.length.toNat ∧ 0 < i.length.toNat

abbrev Contiguous (first : Nat) (l : List Instruction) (last : Nat) : Prop :=
  Laid StartsAt (fun i => i.length.toNat) first l last

/-- The instructions tile what was consumed, but for a last one that runs past the input. -/
structure Tiles (r : Decode) (size : Nat) : Prop where
  whole : r.overran = false → Contiguous 0 r.instructions r.consumed ∧ r.consumed ≤ size
  past : r.overran = true → ∃ l i, r.instructions = l ++ [i] ∧ Contiguous 0 l r.consumed ∧
    StartsAt i r.consumed ∧ r.consumed < size ∧ size < r.consumed + i.length.toNat

/-- What a walk has so far tiles the bytes behind it. -/
structure Behind (w : Walk) (size : Nat) : Prop where
  contiguous : Contiguous 0 w.result.instructions w.offset
  inside : w.offset ≤ size
  fits : w.result.overran = false

/-- One step from tiles to tiles, past a dword at least. -/
theorem settle_tiles (stopAtEnd : Bool) {w : Walk} {seen : Recognised} {result : Decode}
    (hw : Behind w bytes.length) (hword : w.offset < bytes.length)
    (h : recognise .traps bytes w.offset word table operands w.result = some (seen, result)) :
    match settle bytes table stopAtEnd w word seen result with
    | .inl w' => Behind w' bytes.length ∧ w.offset + 4 ≤ w'.offset
    | .inr (r, _) => Tiles r bytes.length := by
  obtain ⟨hdvd, hpos, hinstructions, hoverran, -⟩ := recognise_spec h
  rw [hw.fits] at hoverran
  have hstarts : StartsAt (record bytes w.offset word seen) w.offset := ⟨rfl, hdvd, hpos⟩
  have hbehind : Contiguous 0 result.instructions w.offset := by
    rw [hinstructions]
    exact hw.contiguous
  have hnext := hbehind.concat hstarts
  have hfour : 4 ≤ seen.length.toNat := Nat.le_of_dvd hpos hdvd
  unfold settle
  dsimp only
  by_cases hpast : bytes.length < w.offset + seen.length.toNat
  · rw [if_pos hpast]
    constructor
    · intro hfalse
      cases hfalse
    · intro _
      exact ⟨result.instructions, _, rfl, hbehind, hstarts, hword, hpast⟩
  · have hinside : w.offset + seen.length.toNat ≤ bytes.length := by omega
    rw [if_neg hpast]
    have hgo : ∀ furthest terminated, Behind ⟨w.offset + seen.length.toNat, furthest,
        { result with
          instructions := result.instructions ++ [record bytes w.offset word seen]
          terminated := terminated }⟩ bytes.length :=
      fun _ _ => ⟨hnext, hinside, hoverran⟩
    by_cases hpadding : nameOf table seen.encoding seen.opcode = some padding
    · rw [if_pos hpadding]
      constructor
      · intro _
        exact ⟨hbehind, hw.inside⟩
      · intro htrue
        exact absurd (hoverran.symm.trans htrue) Bool.false_ne_true
    · rw [if_neg hpadding]
      by_cases hend : nameOf table seen.encoding seen.opcode = some programEnd
      · rw [if_pos hend]
        by_cases hstop : stopAtEnd = true ∧ reach w.furthestBranch (w.offset + seen.length.toNat)
            word (nameOf table seen.encoding seen.opcode) < w.offset + seen.length.toNat
        · rw [if_pos hstop]
          constructor
          · intro _
            exact ⟨hnext, hinside⟩
          · intro htrue
            exact absurd (hoverran.symm.trans htrue) Bool.false_ne_true
        · rw [if_neg hstop]
          exact ⟨hgo _ _, by show w.offset + 4 ≤ w.offset + seen.length.toNat; omega⟩
      · rw [if_neg hend]
        exact ⟨hgo _ _, by show w.offset + 4 ≤ w.offset + seen.length.toNat; omega⟩

theorem settle_ended {stopAtEnd : Bool} {w : Walk} {seen : Recognised} {result r : Decode}
    (h : settle bytes table stopAtEnd w word seen result = .inr (r, .ended)) :
    nameOf table seen.encoding seen.opcode = some programEnd := by
  unfold settle at h
  dsimp only at h
  split at h
  · cases h
  · split at h
    · cases h
    · split at h
      · next hend => exact hend
      · cases h

/-- Inside the buffer, what is settled is settled alike with more bytes after. -/
theorem settle_append (suffix : List UInt8) (stopAtEnd : Bool) {w : Walk} (seen : Recognised)
    (result : Decode) (hdvd : 4 ∣ seen.length.toNat)
    (hfit : w.offset + seen.length.toNat ≤ bytes.length) :
    settle (bytes ++ suffix) table stopAtEnd w word seen result =
      settle bytes table stopAtEnd w word seen result := by
  have hrecord : record (bytes ++ suffix) w.offset word seen =
      record bytes w.offset word seen := by
    unfold record
    rw [readWords_append suffix (by omega)]
  have hle : ¬ (bytes ++ suffix).length < w.offset + seen.length.toNat := by
    rw [List.length_append]
    omega
  unfold settle
  dsimp only
  rw [hrecord, if_neg hle, if_neg (Nat.not_lt.mpr hfit)]

theorem settle_fits {stopAtEnd : Bool} {w : Walk} {seen : Recognised} {result : Decode}
    (h : ∀ r, settle bytes table stopAtEnd w word seen result ≠ .inr (r, .overran)) :
    w.offset + seen.length.toNat ≤ bytes.length := by
  by_contra hpast
  unfold settle at h
  dsimp only at h
  rw [if_pos (Nat.not_le.mp hpast)] at h
  exact h _ rfl

theorem settle_next {stopAtEnd : Bool} {w w' : Walk} {seen : Recognised} {result : Decode}
    (h : settle bytes table stopAtEnd w word seen result = .inl w') :
    w'.offset = w.offset + seen.length.toNat := by
  unfold settle at h
  dsimp only at h
  split at h
  · cases h
  · split at h
    · cases h
    · split at h
      · split at h
        · cases h
        · cases h
          rfl
      · cases h
        rfl

/-- The family of a program's end is told apart by its own dwords. -/
theorem selfContained_of_ended (hends : table.EndsAlone) {result result' : Decode}
    {seen : Recognised}
    (h : recognise .traps bytes offset word table operands result = some (seen, result'))
    (hname : nameOf table seen.encoding seen.opcode = some programEnd) {index : UInt16}
    {found : Encoding} (hlookup : table.lookup word = some (index, found)) :
    found.SelfContained := by
  obtain ⟨-, -, -, -, hencoding⟩ := recognise_spec h
  obtain ⟨i, hi, hname⟩ := Option.bind_eq_some_iff.mp hname
  obtain ⟨family, hfamily, hname⟩ := Option.bind_eq_some_iff.mp hname
  obtain ⟨found', hlookup'⟩ := hencoding i hi
  rw [hlookup] at hlookup'
  cases hlookup'
  obtain ⟨hmem, hat⟩ := EncodingTable.mem_of_lookup hlookup
  rw [hat] at hfamily
  cases hfamily
  exact hends found hmem seen.opcode hname

theorem walk_tiles {stopAtEnd : Bool} {fuel : Nat} {w : Walk} {r : Decode} {exit : Exit}
    (hw : Behind w bytes.length)
    (h : walk .traps bytes table operands stopAtEnd fuel w = some (r, exit)) :
    Tiles r bytes.length := by
  induction fuel generalizing w with
  | zero =>
    unfold walk at h
    split at h
    · cases h
      constructor
      · intro _
        exact ⟨hw.contiguous, hw.inside⟩
      · intro htrue
        exact absurd (hw.fits.symm.trans htrue) Bool.false_ne_true
    · cases h
  | succ fuel ih =>
    unfold walk at h
    split at h
    · cases h
      constructor
      · intro _
        exact ⟨hw.contiguous, hw.inside⟩
      · intro htrue
        exact absurd (hw.fits.symm.trans htrue) Bool.false_ne_true
    · next word hword =>
      obtain ⟨out, hvisit, h⟩ := Option.bind_eq_some_iff.mp h
      obtain ⟨⟨seen, result⟩, hseen, hout⟩ := Option.bind_eq_some_iff.mp hvisit
      have htiles := settle_tiles stopAtEnd hw
        (by have := le_of_readWord hword; omega) hseen
      cases hout
      cases hsettle : settle bytes table stopAtEnd w word seen result with
      | inl w' =>
        rw [hsettle] at htiles h
        exact ih htiles.1 h
      | inr out =>
        rw [hsettle] at htiles h
        cases h
        exact htiles

/-- A walk that ends at a program's end takes the same way with more bytes after. -/
theorem walk_append (suffix : List UInt8) (hends : table.EndsAlone) {stopAtEnd : Bool}
    {fuel fuel' : Nat} (hfuel : fuel ≤ fuel') {w : Walk} {r : Decode}
    (h : walk .traps bytes table operands stopAtEnd fuel w = some (r, .ended)) :
    walk .traps (bytes ++ suffix) table operands stopAtEnd fuel' w = some (r, .ended) := by
  induction fuel generalizing w fuel' with
  | zero =>
    unfold walk at h
    split at h <;> cases h
  | succ fuel ih =>
    obtain ⟨n, rfl⟩ := Nat.exists_eq_add_of_le hfuel
    unfold walk at h
    split at h
    · cases h
    · next word hword =>
      obtain ⟨out, hvisit, h⟩ := Option.bind_eq_some_iff.mp h
      obtain ⟨⟨seen, result⟩, hseen, hout⟩ := Option.bind_eq_some_iff.mp hvisit
      cases hout
      have hfour : 4 ≤ seen.length.toNat := by
        obtain ⟨hdvd, hpos, -⟩ := recognise_spec hseen
        exact Nat.le_of_dvd hpos hdvd
      have hfit : w.offset + seen.length.toNat ≤ bytes.length := by
        have hfits : ∀ r', settle bytes table stopAtEnd w word seen result ≠
            .inr (r', .overran) := by
          intro r' hover
          rw [hover] at h
          cases h
        exact settle_fits hfits
      -- the dword after is there already, or the instruction is the program's end
      have hself : ∀ index found, table.lookup word = some (index, found) →
          bytes.length < w.offset + 8 → found.SelfContained := by
        intro index found hlookup hlt
        cases hsettle : settle bytes table stopAtEnd w word seen result with
        | inl w' =>
          rw [hsettle] at h
          have hoffset := settle_next hsettle
          cases hread : readWord bytes w'.offset with
          | none =>
            unfold walk at h
            dsimp only at h
            rw [hread] at h
            cases h
          | some next =>
            have := le_of_readWord hread
            omega
        | inr out =>
          rw [hsettle] at h
          cases h
          exact selfContained_of_ended hends hseen (settle_ended hsettle) hlookup
      have hmore := recognise_append suffix hseen hfit hself
      have hsettle : settle (bytes ++ suffix) table stopAtEnd w word seen result =
          settle bytes table stopAtEnd w word seen result :=
        settle_append suffix stopAtEnd seen result (recognise_spec hseen).1 hfit
      rw [Nat.add_right_comm]
      unfold walk
      rw [readWord_append suffix (le_of_readWord hword), hword]
      apply Option.bind_eq_some_iff.mpr
      apply Exists.intro (settle bytes table stopAtEnd w word seen result)
      apply And.intro
      · exact Option.bind_eq_some_iff.mpr ⟨_, hmore, congrArg some hsettle⟩
      · cases hout : settle bytes table stopAtEnd w word seen result with
        | inl w' =>
          rw [hout] at h
          exact ih (Nat.le_add_right fuel n) h
        | inr out =>
          rw [hout] at h
          exact h

/-! ## The bytes left over -/

def Decode.trailing (r : Decode) (n : Nat) : Decode := { r with trailingBytes := n }

def Walk.trailing (w : Walk) (n : Nat) : Walk := { w with result := w.result.trailing n }

theorem recognise_trailing (o : Overflow) (result : Decode) (n : Nat) :
    recognise o bytes offset word table operands (result.trailing n) =
      (recognise o bytes offset word table operands result).map
        (fun out => (out.1, out.2.trailing n)) := by
  unfold recognise
  cases table.lookup word with
  | none => rfl
  | some entry =>
    obtain ⟨index, found⟩ := entry
    cases hdescribe : describe o bytes offset word table operands index found <;> simp [hdescribe]

theorem settle_trailing (bytes : List UInt8) (table : EncodingTable) (stopAtEnd : Bool)
    (w : Walk) (word : UInt32) (seen : Recognised) (result : Decode) (n : Nat) :
    settle bytes table stopAtEnd (w.trailing n) word seen (result.trailing n) =
      match settle bytes table stopAtEnd w word seen result with
      | .inl w' => .inl (w'.trailing n)
      | .inr (r, .overran) => .inr (r.trailing n, .overran)
      | .inr out => .inr out := by
  unfold settle
  dsimp only [Walk.trailing, Decode.trailing]
  split
  · rfl
  · split
    · rfl
    · split
      · split <;> rfl
      · rfl

/-- What a walk to a program's end was told of left over bytes does not matter. -/
theorem walk_trailing {o : Overflow} {stopAtEnd : Bool} {fuel : Nat} {w : Walk} {r : Decode}
    (n : Nat) (h : walk o bytes table operands stopAtEnd fuel w = some (r, .ended)) :
    walk o bytes table operands stopAtEnd fuel (w.trailing n) = some (r, .ended) := by
  induction fuel generalizing w with
  | zero =>
    unfold walk at h
    split at h <;> cases h
  | succ fuel ih =>
    unfold walk at h ⊢
    have hoffset : (w.trailing n).offset = w.offset := rfl
    rw [hoffset]
    cases hword : readWord bytes w.offset with
    | none =>
      rw [hword] at h
      cases h
    | some word =>
      rw [hword] at h
      obtain ⟨out, hvisit, h⟩ := Option.bind_eq_some_iff.mp h
      obtain ⟨⟨seen, result⟩, hseen, hout⟩ := Option.bind_eq_some_iff.mp hvisit
      cases hout
      apply Option.bind_eq_some_iff.mpr
      apply Exists.intro (settle bytes table stopAtEnd (w.trailing n) word seen
        (result.trailing n))
      apply And.intro
      · apply Option.bind_eq_some_iff.mpr
        apply Exists.intro (seen, result.trailing n)
        apply And.intro _ rfl
        show recognise o bytes w.offset word table operands (w.result.trailing n) = _
        rw [recognise_trailing, hseen]
        rfl
      · rw [settle_trailing]
        cases hsettle : settle bytes table stopAtEnd w word seen result with
        | inl w' =>
          rw [hsettle] at h
          exact ih h
        | inr out =>
          rw [hsettle] at h
          cases h
          rfl

/-! ## A program decoded -/

theorem behind_start (size n : Nat) : Behind ⟨0, 0, { trailingBytes := n }⟩ size :=
  ⟨rfl, Nat.zero_le size, rfl⟩

/-- What is decoded tiles what was consumed, in either build, and a program decoded to its end
is decoded the same whatever follows it. -/
theorem decodeProgram_tiles {r : Decode} {exit : Exit}
    (h : decodeInner .traps bytes table operands true = some (r, exit)) :
    (∀ o, decodeInner o bytes table operands true = some (r, exit)) ∧ Tiles r bytes.length ∧
      (exit = .ended → table.EndsAlone → ∀ o suffix,
        decodeInner o (bytes ++ suffix) table operands true = some (r, .ended)) := by
  apply And.intro
  · exact fun o => agrees_walk true bytes.length _ o _ h
  apply And.intro
  · exact walk_tiles (behind_start bytes.length _) h
  · intro hexit hends o suffix
    subst hexit
    have hfuel : bytes.length ≤ (bytes ++ suffix).length := by
      rw [List.length_append]
      omega
    have hmore := walk_append suffix hends hfuel h
    exact agrees_walk true (bytes ++ suffix).length _ o _
      (walk_trailing ((bytes ++ suffix).length % 4) hmore)

/-! ## Tables of a file -/

def soppFamily : Encoding where
  name := "SOPP"
  mask := 0xFF800000
  value := 0xBF800000
  opcode := { shift := 16, width := 7 }
  widthBytes := 4
  operands := some []

def smemFamily : Encoding where
  name := "SMEM"
  mask := 0xFC000000
  value := 0xF4000000
  opcode := { shift := 18, width := 8 }
  widthBytes := 8

def wideFamily : Encoding where
  name := "WIDE"
  mask := 0xFF800000
  value := 0xBE800000
  opcode := { shift := 8, width := 8 }
  widthBytes := 0xFFFFFFFC
  literalOperands := [{ shift := 0, width := 8 }]

/-- The layout of a load of two dwords: its offset. -/
def loadLayout : OpcodeOperands where
  family := "SMEM"
  opcode := 1
  mnemonic := "s_load_dwordx2"
  samples := 2
  operands := [{ word := 1, shift := 0, width := 21, kind := .immediate }]

/-- A table of families with one opcode's layout and the names of two more. -/
def tableOf (families : List Encoding) : Except ShaderError EncodingTable := do
  let table ← EncodingTable.load { encoding := families }
  let table ← table.loadOpcodeOperands { opcodeOperands := [loadLayout] }
  table.addNames { entries := [("SOPP", 1, "s_endpgm"), ("WIDE", 1, "s_endpgm")], target := "" }

def tableWith (families : List Encoding) : EncodingTable :=
  ((tableOf families).toOption).getD default

theorem tableOf_eq {families : List Encoding} (h : (tableOf families).toOption.isSome = true) :
    tableOf families = .ok (tableWith families) := by
  unfold tableWith
  cases hload : tableOf families with
  | ok table => rfl
  | error e =>
    rw [hload] at h
    cases h

/-- `s_endpgm`, little-endian. -/
def endpgm : List UInt8 := [0x00, 0x00, 0x81, 0xBF]

def loadWaitEnd : List UInt8 :=
  [0x00, 0x00, 0x04, 0xF4, 0x10, 0x00, 0x00, 0xFA, 0x7F, 0xC0, 0x8C, 0xBF] ++ endpgm

theorem decodeProgram_tiles_loadWaitEnd :
    tableOf [smemFamily, soppFamily] = .ok (tableWith [smemFamily, soppFamily]) ∧
      ∃ r, (∀ o, decodeInner o loadWaitEnd (tableWith [smemFamily, soppFamily]) ⟨[]⟩ true =
          some (r, .ended)) ∧
        r.instructions.map Instruction.length = [8, 4, 4] ∧
        Tiles r loadWaitEnd.length ∧ ∀ o suffix,
          decodeInner o (loadWaitEnd ++ suffix) (tableWith [smemFamily, soppFamily]) ⟨[]⟩ true =
            some (r, .ended) := by
  apply And.intro (tableOf_eq (by decide +kernel))
  have h : decodeInner .traps loadWaitEnd (tableWith [smemFamily, soppFamily]) ⟨[]⟩ true =
      some (⟨[⟨0, 8, 0xF4040000, some 0xFA000010, [0xF4040000, 0xFA000010], some 1, 1,
          [.immediate 16], true⟩,
        ⟨8, 4, 0xBF8CC07F, none, [0xBF8CC07F], some 0, 12, [], true⟩,
        ⟨12, 4, 0xBF810000, none, [0xBF810000], some 0, 1, [], true⟩], false, false, 0, true,
        16⟩, .ended) := by decide +kernel
  have hself : ∀ e ∈ (tableWith [smemFamily, soppFamily]).encodings, e.SelfContained := by
    decide +kernel
  obtain ⟨hbuilds, htiles, hsuffix⟩ := decodeProgram_tiles h
  exact ⟨_, hbuilds, rfl, htiles, hsuffix rfl (fun e he _ _ => hself e he)⟩

/-- The family of programs' ends, with a literal told from a dword that is not its own. -/
def looseFamily : Encoding :=
  { soppFamily with literalOperands := [{ shift := 0, width := 9, word := 1 }] }

def loose : EncodingTable := tableWith [smemFamily, looseFamily, wideFamily]

/-- Three programs of one table that loads: one that is longer with a dword after its end, one
that consumes less than its instruction, and one that ends in an instruction of no bytes where
overflow is not checked. -/
theorem decodeProgram_not_tiles :
    tableOf [smemFamily, looseFamily, wideFamily] = .ok loose ∧
      (decodeProgram .traps endpgm loose ⟨[]⟩).map Decode.consumed = some 4 ∧
      (decodeProgram .traps (endpgm ++ [0xFF, 0, 0, 0]) loose ⟨[]⟩).map Decode.consumed =
        some 8 ∧
      (decodeProgram .traps [0, 0, 0, 0xF4] loose ⟨[]⟩).map
        (fun r => (r.consumed, r.instructions.map Instruction.length)) = some (0, [8]) ∧
      (decodeProgram .wraps [0, 0, 0, 0xF4, 0, 0, 0, 0, 0xFF, 1, 0x80, 0xBE] loose ⟨[]⟩).map
        (fun r => (r.consumed, r.instructions.map Instruction.length)) = some (8, [8, 0]) := by
  apply And.intro (tableOf_eq (by decide +kernel))
  decide +kernel

end Orbistoun.Shader
