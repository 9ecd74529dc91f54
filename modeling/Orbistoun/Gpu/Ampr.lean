import Orbistoun.Lib.ByteMemory

/-! # AMPR command buffers

An object in guest memory counts the bytes its commands take in a buffer bound to it, and the
commands. A write-address command is appended where it fits and read back when the buffer is
submitted.
-/

namespace Orbistoun.Gpu.Ampr

open Orbistoun.Lib.ByteMemory
open Orbistoun.Lib.Codes

/-! ## The object -/

/-- Where the object counts the bytes its commands take. -/
def USED_AT : Nat := 4

def COUNT_AT : Nat := 8

/-- Where the bound buffer's size is. -/
def SIZE_AT : Nat := 12

/-- Where its address is. -/
def BUFFER_AT : Nat := 16

/-- How many leading bytes of the object the constructor zeroes. -/
def OBJECT_HEAD : Nat := 24

def BOUND_ALIGNMENT : Nat := 0x20

def REFUSED_SIZE : Nat := 0x10

def TOO_SMALL : Nat := 0x80020010

def DOES_NOT_FIT : Nat := 0x80020010

def UNALIGNED : Nat := 0x80020016

/-- `GuestError::Unimplemented`. -/
def PLACEHOLDER : Nat := 0xF7FF0001

/-- An accessor refuses null alone. -/
def readWord (m : Memory) (width at' : Nat) : Option Nat :=
  if at' = 0 then none else some (word m width at')

def writeBytes (m : Memory) (at' : Nat) (bytes : List UInt8) : Option Memory :=
  if at' = 0 then none else some (store m at' bytes)

def writeWord (m : Memory) (width at' value : Nat) : Option Memory :=
  writeBytes m at' (littleEndian width value)

/-! ## The command -/

/-- The write-address command's opcode. -/
def WRITE_ADDRESS : Nat := 0x05

def writeAddressCommand (address value : Nat) : List Nat :=
  let shifted := value >>> 2
  let words := if shifted = 0 then 1 else 2
  let flags := (if shifted ≠ 0 then 1 else 0) <<< 6 ||| (value &&& 0x3) <<< 4 ||| words
  let high := (address >>> 32) &&& 0xffff
  let command := [WRITE_ADDRESS ||| flags <<< 8 ||| high <<< 16, address % 2 ^ 32]
  if shifted ≠ 0 then command ++ [shifted] else command

abbrev WriteAddress := Nat × Nat

/-- The walk over a command buffer's words from a command on. A command that is not a
write-address, or is cut short, ends it, with the commands before it and its place. -/
def writeAddressesFrom (out : List WriteAddress) (at' : Nat) (words : List Nat) :
    Except (List WriteAddress × Nat) (List WriteAddress) :=
  match words with
  | [] => .ok out
  | header :: rest =>
      let flags := (header >>> 8) &&& 0xff
      let after := flags &&& 0xf
      if header &&& 0xff ≠ WRITE_ADDRESS ∨ ¬ (1 ≤ after ∧ after ≤ 2) ∨ rest.length < after then
        .error (out, at')
      else
        let address := (header >>> 16) <<< 32 ||| rest.getD 0 0
        let shifted := if after = 2 then rest.getD 1 0 else 0
        let value := (shifted <<< 2) % 2 ^ 32 ||| (flags >>> 4) &&& 0x3
        writeAddressesFrom (out ++ [(address, value)]) (at' + 1 + after) (rest.drop after)
  termination_by words.length
  decreasing_by
    rw [List.length_drop, List.length_cons]
    omega

def writeAddresses (words : List Nat) : Except (List WriteAddress × Nat) (List WriteAddress) :=
  writeAddressesFrom [] 0 words

/-- The words of some bytes, whole ones. -/
def wordsOf : List UInt8 → List Nat
  | a :: b :: c :: d :: rest => ofLittleEndian [a, b, c, d] :: wordsOf rest
  | _ => []

/-! ## The calls -/

/-- Answers the object, or null for one that cannot be written. -/
def commandBufferConstructor (m : Memory) (object : Nat) : Nat × Memory :=
  match writeBytes m object (List.replicate OBJECT_HEAD 0) with
  | none => (0, m)
  | some m => (object, m)

def commandBufferSetBuffer (m : Memory) (object buffer size : Nat) : Nat × Memory :=
  let size := size &&& 0xffffffff
  if size ≤ REFUSED_SIZE then (TOO_SMALL, m)
  else if size % 2 = 1 then (UNALIGNED, m)
  else if size % BOUND_ALIGNMENT ≠ 0 then (PLACEHOLDER, m)
  else
    match writeWord m 4 (object + SIZE_AT) size with
    | none => (PLACEHOLDER, m)
    | some m =>
        match writeWord m 8 (object + BUFFER_AT) buffer with
        | none => (PLACEHOLDER, m)
        | some m => (0, m)

def commandBufferWriteAddress (m : Memory) (object address value : Nat) : Nat × Memory :=
  if address % 8 ≠ 0 then (UNALIGNED, m)
  else
    match readWord m 4 (object + USED_AT), readWord m 4 (object + COUNT_AT),
      readWord m 4 (object + SIZE_AT), readWord m 8 (object + BUFFER_AT) with
    | some used, some count, some size, some buffer =>
        let bytes := (writeAddressCommand address value).flatMap (littleEndian 4)
        if buffer = 0 then (PLACEHOLDER, m)
        else if size < min (used + bytes.length) (2 ^ 32 - 1) then (DOES_NOT_FIT, m)
        else
          match writeBytes m (buffer + used) bytes with
          | none => (PLACEHOLDER, m)
          | some m =>
              match writeWord m 4 (object + USED_AT) (used + bytes.length) with
              | none => (PLACEHOLDER, m)
              | some m =>
                  match writeWord m 4 (object + COUNT_AT) (count + 1) with
                  | none => (PLACEHOLDER, m)
                  | some m => (0, m)
    | _, _, _, _ => (PLACEHOLDER, m)

def commandBufferReset (m : Memory) (object : Nat) : Nat × Memory :=
  match writeWord m 4 (object + USED_AT) 0 with
  | none => (PLACEHOLDER, m)
  | some m =>
      match writeWord m 4 (object + COUNT_AT) 0 with
      | none => (PLACEHOLDER, m)
      | some m => (0, m)

/-! ## One command -/

theorem shiftLeft_or {a b k : Nat} (h : b < 2 ^ k) : a <<< k ||| b = a * 2 ^ k + b := by
  rw [← Nat.shiftLeft_add_eq_or_of_lt h, Nat.shiftLeft_eq]

theorem and_mask (a k : Nat) : a &&& (2 ^ k - 1) = a % 2 ^ k := Nat.and_two_pow_sub_one_eq_mod a k

/-- The flags byte: whether the value has a word, its low two bits, the words behind the
header. -/
def flagsOf (value : Nat) : Nat :=
  (if value / 4 = 0 then 0 else 64) + 16 * (value % 4) + if value / 4 = 0 then 1 else 2

theorem writeAddressCommand_eq {address value : Nat} (haddress : address < 2 ^ 48) :
    writeAddressCommand address value =
      (address / 2 ^ 32 * 65536 + (flagsOf value * 256 + 5)) :: address % 2 ^ 32 ::
        if value / 4 = 0 then [] else [value / 4] := by
  have hshifted : value >>> 2 = value / 4 := Nat.shiftRight_eq_div_pow value 2
  have hlow : value &&& 3 = value % 4 := and_mask value 2
  have hhigh : (address >>> 32) &&& 0xffff = address / 2 ^ 32 := by
    have hmask : (address >>> 32) &&& 0xffff = (address >>> 32) % 2 ^ 16 := and_mask _ 16
    rw [hmask, Nat.shiftRight_eq_div_pow]
    apply Nat.mod_eq_of_lt
    omega
  have hlow4 : value % 4 < 4 := Nat.mod_lt _ (by decide)
  have hflags : ∀ b words, b < 2 → words < 16 →
      b <<< 6 ||| (value % 4) <<< 4 ||| words = 64 * b + 16 * (value % 4) + words := by
    intro b words hb hwords
    have hfirst : b <<< 6 ||| (value % 4) <<< 4 = (b * 4 + value % 4) <<< 4 := by
      rw [Nat.shiftLeft_eq (value % 4), shiftLeft_or (by omega), Nat.shiftLeft_eq]
      omega
    rw [hfirst, shiftLeft_or (by omega)]
    omega
  have hheader : ∀ flags, flags < 256 →
      WRITE_ADDRESS ||| flags <<< 8 ||| (address / 2 ^ 32) <<< 16 =
        address / 2 ^ 32 * 65536 + (flags * 256 + 5) := by
    intro flags hflags'
    rw [Nat.or_comm WRITE_ADDRESS, shiftLeft_or (by decide : WRITE_ADDRESS < 2 ^ 8),
      Nat.or_comm, shiftLeft_or (by unfold WRITE_ADDRESS; omega)]
    rfl
  unfold writeAddressCommand flagsOf
  simp only [hshifted, hlow, hhigh]
  by_cases hzero : value / 4 = 0
  · have hword := hflags 0 1 (by decide) (by decide)
    simp only [hzero, ne_eq, not_true_eq_false, if_false, if_true]
    rw [hword, hheader _ (by omega)]
  · have hword := hflags 1 2 (by decide) (by decide)
    simp only [hzero, ne_eq, not_false_eq_true, if_true, if_false]
    rw [hword, hheader _ (by omega)]
    congr 1

theorem writeAddressCommand_small {address value : Nat} (haddress : address < 2 ^ 48)
    (hvalue : value < 2 ^ 32) : ∀ w ∈ writeAddressCommand address value, w < 256 ^ 4 := by
  rw [writeAddressCommand_eq haddress]
  intro w hw
  have hflags : flagsOf value < 256 := by
    unfold flagsOf
    split <;> omega
  have hcases : w = address / 2 ^ 32 * 65536 + (flagsOf value * 256 + 5) ∨ w = address % 2 ^ 32 ∨
      w = value / 4 := by
    split at hw <;> simp at hw <;> omega
  rcases hcases with rfl | rfl | rfl <;> omega

/-- The walk reads a command back, whatever follows it. -/
theorem walk_command {address value : Nat} (haddress : address < 2 ^ 48) (hvalue : value < 2 ^ 32)
    (out : List WriteAddress) (at' : Nat) (rest : List Nat) :
    ∃ next, writeAddressesFrom out at' (writeAddressCommand address value ++ rest) =
      writeAddressesFrom (out ++ [(address, value)]) next rest := by
  have hflags : flagsOf value < 256 := by
    unfold flagsOf
    split <;> omega
  have hwords : flagsOf value % 16 = if value / 4 = 0 then 1 else 2 := by
    unfold flagsOf
    split <;> omega
  have hlow2 : flagsOf value / 16 % 4 = value % 4 := by
    unfold flagsOf
    split <;> omega
  have hbyte : ∀ n, n &&& 0xff = n % 256 := fun n => and_mask n 8
  have hnibble : ∀ n, n &&& 0xf = n % 16 := fun n => and_mask n 4
  have hpair : ∀ n, n &&& 0x3 = n % 4 := fun n => and_mask n 2
  have hh8 : (address / 2 ^ 32 * 65536 + (flagsOf value * 256 + 5)) / 2 ^ 8 % 256 =
      flagsOf value := by omega
  have hh0 : (address / 2 ^ 32 * 65536 + (flagsOf value * 256 + 5)) % 256 = 5 := by omega
  have hh16 : (address / 2 ^ 32 * 65536 + (flagsOf value * 256 + 5)) / 2 ^ 16 =
      address / 2 ^ 32 := by omega
  have hplace : (address / 2 ^ 32) <<< 32 ||| address % 2 ^ 32 = address := by
    rw [shiftLeft_or (Nat.mod_lt _ (by decide))]
    omega
  rw [writeAddressCommand_eq haddress, List.cons_append, List.cons_append, writeAddressesFrom]
  simp only [hbyte, hnibble, hpair, Nat.shiftRight_eq_div_pow, hh8, hh0, hh16, hwords]
  have hpow : flagsOf value / 2 ^ 4 % 4 = value % 4 := hlow2
  simp only [hpow, List.getD_cons_zero, hplace]
  by_cases hzero : value / 4 = 0
  · refine ⟨at' + 1 + 1, ?_⟩
    have hvalue' : (0 <<< 2) % 2 ^ 32 ||| value % 4 = value := by
      rw [Nat.zero_shiftLeft, Nat.zero_mod, Nat.zero_or]
      omega
    simp only [hzero, if_true, List.nil_append]
    rw [if_neg (by simp [WRITE_ADDRESS])]
    rw [if_neg (by decide : ¬ (1 : Nat) = 2), hvalue']
    rfl
  · refine ⟨at' + 1 + 2, ?_⟩
    have hvalue' : (value / 4) <<< 2 % 2 ^ 32 ||| value % 4 = value := by
      have hsmall : (value / 4) <<< 2 < 2 ^ 32 := by
        rw [Nat.shiftLeft_eq]
        omega
      rw [Nat.mod_eq_of_lt hsmall, shiftLeft_or (by omega)]
      omega
    simp only [hzero, if_false, List.cons_append, List.nil_append]
    rw [if_neg (by simp [WRITE_ADDRESS])]
    simp only [if_true, List.getD_cons_succ, List.getD_cons_zero, hvalue']
    rfl

/-! ## A buffer of commands -/

def commandWords (log : List WriteAddress) : List Nat :=
  log.flatMap (fun w => writeAddressCommand w.1 w.2)

/-- An address and a value a command can carry. -/
def Fits (w : WriteAddress) : Prop := w.1 < 2 ^ 48 ∧ w.2 < 2 ^ 32

theorem walk_commands {log : List WriteAddress} (h : ∀ w ∈ log, Fits w)
    (out : List WriteAddress) (at' : Nat) :
    writeAddressesFrom out at' (commandWords log) = .ok (out ++ log) := by
  induction log generalizing out at' with
  | nil => simp [commandWords, writeAddressesFrom]
  | cons w log ih =>
      obtain ⟨haddress, hvalue⟩ := h w List.mem_cons_self
      obtain ⟨next, hnext⟩ := walk_command haddress hvalue out at' (commandWords log)
      have hrest := ih (fun x hx => h x (List.mem_cons_of_mem w hx)) (out ++ [w]) next
      rw [List.append_assoc] at hrest
      exact hnext.trans hrest

theorem wordsOf_littleEndian {words : List Nat} (h : ∀ w ∈ words, w < 256 ^ 4) :
    wordsOf (words.flatMap (littleEndian 4)) = words := by
  induction words with
  | nil => rfl
  | cons w words ih =>
      have hword := ofLittleEndian_littleEndian (h w List.mem_cons_self)
      have hrest := ih (fun x hx => h x (List.mem_cons_of_mem w hx))
      have hsplit : ∀ tail, wordsOf (littleEndian 4 w ++ tail) =
          ofLittleEndian (littleEndian 4 w) :: wordsOf tail := fun _ => rfl
      rw [List.flatMap_cons, hsplit, hword, hrest]

def commandBytes (log : List WriteAddress) : List UInt8 :=
  (commandWords log).flatMap (littleEndian 4)

theorem commandBytes_append (log more : List WriteAddress) :
    commandBytes (log ++ more) = commandBytes log ++ commandBytes more := by
  simp [commandBytes, commandWords]

theorem commandWords_small {log : List WriteAddress} (h : ∀ w ∈ log, Fits w) :
    ∀ w ∈ commandWords log, w < 256 ^ 4 := by
  intro w hw
  obtain ⟨command, hcommand, hmem⟩ := List.mem_flatMap.mp hw
  exact writeAddressCommand_small (h command hcommand).1 (h command hcommand).2 w hmem

theorem writeAddresses_commandBytes {log : List WriteAddress} (h : ∀ w ∈ log, Fits w) :
    writeAddresses (wordsOf (commandBytes log)) = .ok log := by
  rw [commandBytes, wordsOf_littleEndian (commandWords_small h)]
  exact walk_commands h [] 0

/-! ## The object and its buffer -/

/-- A constructed object, bound to a buffer of a size, that holds these commands. -/
structure Holds (object buffer size : Nat) (log : List WriteAddress) (m : Memory) : Prop where
  used : word m 4 (object + USED_AT) = (commandBytes log).length
  count : word m 4 (object + COUNT_AT) = log.length
  sized : word m 4 (object + SIZE_AT) = size
  bound : word m 8 (object + BUFFER_AT) = buffer
  inside : (commandBytes log).length ≤ size
  bytes : load m buffer (commandBytes log).length = commandBytes log

/-- What a call on the object is. -/
inductive Op where
  | writeAddress (address value : Nat)
  | reset
  deriving DecidableEq, Repr

namespace Op

def perform (m : Memory) (object : Nat) : Op → Nat × Memory
  | writeAddress address value => commandBufferWriteAddress m object address value
  | reset => commandBufferReset m object

/-- The commands appended since the last reset, after a call with an answer. -/
def note (log : List WriteAddress) (answer : Nat) : Op → List WriteAddress
  | writeAddress address value => if answer = 0 then log ++ [(address, value)] else log
  | reset => if answer = 0 then [] else log

/-- An address of 48 bits and a value of 32. -/
def Encodable : Op → Prop
  | writeAddress address value => Fits (address, value)
  | reset => True

end Op

/-- A run of calls: the memory, and what was appended since the last reset. -/
def runOps (object : Nat) : List Op → Memory × List WriteAddress → Memory × List WriteAddress
  | [], s => s
  | op :: ops, (m, log) =>
      runOps object ops ((op.perform m object).2, op.note log (op.perform m object).1)

theorem length_commandBytes_one {w : WriteAddress} (h : Fits w) :
    (commandBytes [w]).length = 8 ∨ (commandBytes [w]).length = 12 := by
  have hwords : commandWords [w] = writeAddressCommand w.1 w.2 := by
    simp [commandWords]
  unfold commandBytes
  rw [hwords, writeAddressCommand_eq h.1]
  split <;> simp

theorem length_le_commandBytes {log : List WriteAddress} (h : ∀ w ∈ log, Fits w) :
    log.length ≤ (commandBytes log).length := by
  induction log with
  | nil => exact Nat.zero_le _
  | cons w log ih =>
      have hrest := ih (fun x hx => h x (List.mem_cons_of_mem w hx))
      have hone := length_commandBytes_one (h w List.mem_cons_self)
      have hsplit : commandBytes (w :: log) = commandBytes [w] ++ commandBytes log :=
        commandBytes_append [w] log
      rw [hsplit, List.length_append, List.length_cons]
      omega

/-- The sizes a binding takes. -/
theorem size_of_bound {m : Memory} {object buffer size : Nat}
    (h : (commandBufferSetBuffer m object buffer size).1 = 0) :
    16 < size &&& 0xffffffff ∧ (size &&& 0xffffffff) % 32 = 0 ∧
      size &&& 0xffffffff < 2 ^ 32 - 1 := by
  have hmask : size &&& 0xffffffff = size % 2 ^ 32 := and_mask size 32
  have hbelow : size % 2 ^ 32 < 2 ^ 32 := Nat.mod_lt _ (by decide)
  have hrefused : REFUSED_SIZE = 16 := rfl
  have halignment : BOUND_ALIGNMENT = 32 := rfl
  unfold commandBufferSetBuffer at h
  dsimp only at h
  by_cases hsmall : size &&& 0xffffffff ≤ REFUSED_SIZE
  · rw [if_pos hsmall] at h
    cases h
  · rw [if_neg hsmall] at h
    by_cases hodd : (size &&& 0xffffffff) % 2 = 1
    · rw [if_pos hodd] at h
      cases h
    · rw [if_neg hodd] at h
      by_cases haligned : (size &&& 0xffffffff) % BOUND_ALIGNMENT ≠ 0
      · rw [if_pos haligned] at h
        cases h
      · rw [hmask] at *
        rw [halignment] at haligned
        omega

theorem holds_bound {m : Memory} {object buffer size : Nat} (hobject : object ≠ 0)
    (hbuffer : buffer < 2 ^ 64)
    (h : (commandBufferSetBuffer (commandBufferConstructor m object).2 object buffer size).1 = 0) :
    Holds object buffer (size &&& 0xffffffff) []
      (commandBufferSetBuffer (commandBufferConstructor m object).2 object buffer size).2 := by
  obtain ⟨hlarge, haligned, hsmall⟩ := size_of_bound h
  have hconstructed : (commandBufferConstructor m object).2 =
      store m object (List.replicate 24 0) := by
    simp [commandBufferConstructor, writeBytes, hobject, OBJECT_HEAD]
  have hset : (commandBufferSetBuffer (commandBufferConstructor m object).2 object buffer size).2 =
      store (store (store m object (List.replicate 24 0)) (object + 12)
        (littleEndian 4 (size &&& 0xffffffff))) (object + 16) (littleEndian 8 buffer) := by
    rw [hconstructed]
    have hrefused : REFUSED_SIZE = 16 := rfl
    have halignment : BOUND_ALIGNMENT = 32 := rfl
    unfold commandBufferSetBuffer
    dsimp only
    rw [if_neg (by omega), if_neg (by omega), if_neg (by rw [halignment]; omega)]
    simp [writeWord, writeBytes, SIZE_AT, BUFFER_AT]
  rw [hset]
  have hlength4 := littleEndian_length 4
  have hlength8 := littleEndian_length 8
  have hzero : ∀ at', at' + 4 ≤ 12 →
      word (store (store (store m object (List.replicate 24 0)) (object + 12)
        (littleEndian 4 (size &&& 0xffffffff))) (object + 16) (littleEndian 8 buffer)) 4
        (object + at') = 0 := by
    intro at' hat
    rw [word_store_apart (Or.inr (by omega)), word_store_apart (Or.inr (by omega))]
    have hload : load (store m object (List.replicate 24 0)) (object + at') 4 =
        List.replicate 4 0 := by
      have hpart : load (store m object (List.replicate 24 0)) object (24 : Nat) =
          List.replicate 24 0 := load_store m object (List.replicate 24 0)
      apply List.ext_getElem (by simp)
      intro i hi hi'
      rw [load_length] at hi
      have hinside : store m object (List.replicate 24 0) (object + (at' + i)) = 0 := by
        rw [store_inside (by rw [List.length_replicate]; omega), List.getElem_replicate]
      simp only [load, List.getElem_map, List.getElem_range, List.getElem_replicate]
      rw [Nat.add_assoc, hinside]
    rw [word, hload]
    rfl
  constructor
  · exact hzero 4 (by omega)
  · exact hzero 8 (by omega)
  · show word _ 4 (object + 12) = _
    rw [word_store_apart (Or.inr (by omega)), word_store (by omega)]
  · exact word_store (by omega)
  · exact Nat.zero_le _
  · rfl

theorem append_holds {m : Memory} {object buffer size : Nat} {log : List WriteAddress}
    (h : Holds object buffer size log m) (hobject : object ≠ 0) (hsize : size < 2 ^ 32 - 1)
    (hapart : Apart object OBJECT_HEAD buffer size) (hlog : ∀ w ∈ log, Fits w)
    {address value : Nat} (hfits : Fits (address, value)) :
    (commandBufferWriteAddress m object address value).1 ≠ 0 ∧
        (commandBufferWriteAddress m object address value).2 = m ∨
      (commandBufferWriteAddress m object address value).1 = 0 ∧
        Holds object buffer size (log ++ [(address, value)])
          (commandBufferWriteAddress m object address value).2 := by
  have hbytes : (writeAddressCommand address value).flatMap (littleEndian 4) =
      commandBytes [(address, value)] := by
    simp [commandBytes, commandWords]
  have hread : ∀ width at', readWord m width (object + at') = some (word m width (object + at')) :=
    fun width at' => if_neg (by omega)
  have hcount := length_le_commandBytes hlog
  have hinside := h.inside
  have hone := length_commandBytes_one hfits
  unfold commandBufferWriteAddress
  by_cases haligned : address % 8 ≠ 0
  · rw [if_pos haligned]
    exact Or.inl ⟨Nat.succ_ne_zero _, rfl⟩
  · rw [if_neg haligned]
    simp only [hread, h.used, h.count, h.sized, h.bound, hbytes]
    by_cases hnull : buffer = 0
    · rw [if_pos hnull]
      exact Or.inl ⟨Nat.succ_ne_zero _, rfl⟩
    · rw [if_neg hnull]
      by_cases hfull : size <
          min ((commandBytes log).length + (commandBytes [(address, value)]).length) (2 ^ 32 - 1)
      · rw [if_pos hfull]
        exact Or.inl ⟨Nat.succ_ne_zero _, rfl⟩
      · rw [if_neg hfull]
        right
        have hfit : (commandBytes log).length + (commandBytes [(address, value)]).length ≤ size := by
          omega
        simp only [writeBytes, writeWord, if_neg (by omega : ¬ buffer + (commandBytes log).length = 0),
          if_neg (by simp [USED_AT] : ¬ object + USED_AT = 0),
          if_neg (by simp [COUNT_AT] : ¬ object + COUNT_AT = 0)]
        refine ⟨trivial, ?_⟩
        generalize hm1 : store m (buffer + (commandBytes log).length)
          (commandBytes [(address, value)]) = m1
        have hlength4 := littleEndian_length 4
        -- The command lies behind the others, apart from the object.
        have hobject1 : ∀ width at', at' + width ≤ 24 →
            word m1 width (object + at') = word m width (object + at') := by
          intro width at' hat
          rw [← hm1]
          apply word_store_apart
          unfold Apart OBJECT_HEAD at *
          omega
        have hbuffer1 : load m1 buffer ((commandBytes log).length +
            (commandBytes [(address, value)]).length) =
            commandBytes (log ++ [(address, value)]) := by
          rw [load_append, ← hm1, load_store, load_store_apart (Or.inr (by omega)), h.bytes,
            commandBytes_append]
        -- The counters are apart from the rest of the object and from the buffer.
        have hcounters : ∀ width at', at' + width ≤ 24 → 12 ≤ at' →
            word (store (store m1 (object + USED_AT) (littleEndian 4 ((commandBytes log).length +
              (commandBytes [(address, value)]).length))) (object + COUNT_AT)
              (littleEndian 4 (log.length + 1))) width (object + at') =
              word m width (object + at') := by
          intro width at' hat hlow
          rw [word_store_apart (Or.inl (by rw [hlength4]; unfold COUNT_AT; omega)),
            word_store_apart (Or.inl (by rw [hlength4]; unfold USED_AT; omega)),
            hobject1 width at' hat]
        have hlengths : (commandBytes (log ++ [(address, value)])).length =
            (commandBytes log).length + (commandBytes [(address, value)]).length := by
          rw [commandBytes_append, List.length_append]
        constructor
        · rw [word_store_apart (Or.inr (by unfold USED_AT COUNT_AT; omega)),
            word_store (by omega), hlengths]
        · rw [word_store (by omega), List.length_append]
          rfl
        · rw [hcounters 4 SIZE_AT (by decide) (by decide), h.sized]
        · rw [hcounters 8 BUFFER_AT (by decide) (by decide), h.bound]
        · rw [hlengths]
          exact hfit
        · rw [hlengths, load_store_apart, load_store_apart, hbuffer1]
          · unfold Apart OBJECT_HEAD USED_AT at *
            rw [hlength4]
            omega
          · unfold Apart OBJECT_HEAD COUNT_AT at *
            rw [hlength4]
            omega

theorem reset_holds {m : Memory} {object buffer size : Nat} {log : List WriteAddress}
    (h : Holds object buffer size log m) :
    (commandBufferReset m object).1 = 0 ∧
      Holds object buffer size [] (commandBufferReset m object).2 := by
  have hlength4 := littleEndian_length 4
  unfold commandBufferReset
  simp only [writeWord, writeBytes, if_neg (by simp [USED_AT] : ¬ object + USED_AT = 0),
    if_neg (by simp [COUNT_AT] : ¬ object + COUNT_AT = 0)]
  refine ⟨trivial, ?_⟩
  have hrest : ∀ width at', at' + width ≤ 24 → 12 ≤ at' →
      word (store (store m (object + USED_AT) (littleEndian 4 0)) (object + COUNT_AT)
        (littleEndian 4 0)) width (object + at') = word m width (object + at') := by
    intro width at' _ hlow
    rw [word_store_apart (Or.inl (by rw [hlength4]; unfold COUNT_AT; omega)),
      word_store_apart (Or.inl (by rw [hlength4]; unfold USED_AT; omega))]
  constructor
  · rw [word_store_apart (Or.inr (by unfold USED_AT COUNT_AT; omega)), word_store (by decide)]
    rfl
  · rw [word_store (by decide)]
    rfl
  · rw [hrest 4 SIZE_AT (by decide) (by decide), h.sized]
  · rw [hrest 8 BUFFER_AT (by decide) (by decide), h.bound]
  · exact Nat.zero_le _
  · rfl

theorem perform_holds {m : Memory} {object buffer size : Nat} {log : List WriteAddress}
    (h : Holds object buffer size log m) (hobject : object ≠ 0) (hsize : size < 2 ^ 32 - 1)
    (hapart : Apart object OBJECT_HEAD buffer size) (hlog : ∀ w ∈ log, Fits w) {op : Op}
    (hop : op.Encodable) :
    Holds object buffer size (op.note log (op.perform m object).1) (op.perform m object).2 ∧
      (∀ w ∈ op.note log (op.perform m object).1, Fits w) ∧
      ((op.perform m object).1 ≠ 0 → (op.perform m object).2 = m) := by
  cases op with
  | writeAddress address value =>
      have hfits : Fits (address, value) := hop
      rcases append_holds h hobject hsize hapart hlog hfits with ⟨hne, hsame⟩ | ⟨hzero, hholds⟩
      · have hnote : Op.note log (commandBufferWriteAddress m object address value).1
            (.writeAddress address value) = log := if_neg hne
        simp only [Op.perform, hnote, hsame]
        exact ⟨h, hlog, fun _ => trivial⟩
      · simp only [Op.perform, Op.note, hzero, if_true]
        refine ⟨hholds, ?_, fun hne => absurd rfl hne⟩
        intro w hw
        rcases List.mem_append.mp hw with hw | hw
        · exact hlog w hw
        · rw [List.mem_singleton.mp hw]
          exact hfits
  | reset =>
      obtain ⟨hzero, hholds⟩ := reset_holds h
      simp only [Op.perform, Op.note, hzero, if_true]
      exact ⟨hholds, fun w hw => absurd hw List.not_mem_nil, fun hne => absurd rfl hne⟩

theorem runOps_holds {object buffer size : Nat} (hobject : object ≠ 0)
    (hsize : size < 2 ^ 32 - 1) (hapart : Apart object OBJECT_HEAD buffer size) {ops : List Op}
    (hops : ∀ op ∈ ops, op.Encodable) {m : Memory} {log : List WriteAddress}
    (h : Holds object buffer size log m) (hlog : ∀ w ∈ log, Fits w) :
    Holds object buffer size (runOps object ops (m, log)).2 (runOps object ops (m, log)).1 ∧
      ∀ w ∈ (runOps object ops (m, log)).2, Fits w := by
  induction ops generalizing m log with
  | nil => exact ⟨h, hlog⟩
  | cons op ops ih =>
      obtain ⟨hholds, hfits, _⟩ :=
        perform_holds h hobject hsize hapart hlog (hops op List.mem_cons_self)
      exact ih (fun x hx => hops x (List.mem_cons_of_mem op hx)) hholds hfits

/-- Through any appends and resets of an object apart from its buffer, the bytes used are
within the bound size, they walk back to what was appended since the last reset, and a call
that is refused changes nothing. -/
theorem appends_walk_back {m : Memory} {object buffer size : Nat} (hobject : object ≠ 0)
    (hbuffer : buffer < 2 ^ 64)
    (hbound : (commandBufferSetBuffer (commandBufferConstructor m object).2 object buffer size).1 =
      0)
    (hapart : Apart object OBJECT_HEAD buffer (size &&& 0xffffffff)) {ops : List Op}
    (hops : ∀ op ∈ ops, op.Encodable) :
    let s := runOps object ops
      ((commandBufferSetBuffer (commandBufferConstructor m object).2 object buffer size).2, [])
    word s.1 4 (object + USED_AT) ≤ size &&& 0xffffffff ∧
      writeAddresses (wordsOf (load s.1 buffer (word s.1 4 (object + USED_AT)))) = .ok s.2 ∧
      ∀ op : Op, op.Encodable → (op.perform s.1 object).1 ≠ 0 → (op.perform s.1 object).2 = s.1 := by
  obtain ⟨_, _, hsmall⟩ := size_of_bound hbound
  have hstart := holds_bound hobject hbuffer hbound
  obtain ⟨hholds, hfits⟩ := runOps_holds hobject hsmall hapart hops hstart
    (fun w hw => absurd hw List.not_mem_nil)
  dsimp only
  refine ⟨?_, ?_, ?_⟩
  · rw [hholds.used]
    exact hholds.inside
  · rw [hholds.used, hholds.bytes]
    exact writeAddresses_commandBytes hfits
  · intro op hop
    exact (perform_holds hholds hobject hsmall hapart hfits hop).2.2

/-- An object bound to a buffer that begins with itself counts its bytes over its command. -/
theorem overlapping_appends_differ :
    let m := (commandBufferSetBuffer (commandBufferConstructor (fun _ => 0) 4096).2 4096 4096 64)
    let s := runOps 4096 [.writeAddress 4096 0] (m.2, [])
    m.1 = 0 ∧ s.2 = [(4096, 0)] ∧
      writeAddresses (wordsOf (load s.1 4096 (word s.1 4 (4096 + USED_AT)))) ≠ .ok s.2 := by
  have hwalk : writeAddresses [261, 8] = .ok [(8, 0)] := by
    simp [writeAddresses, writeAddressesFrom, WRITE_ADDRESS]
  have hwords : wordsOf (load (runOps 4096 [.writeAddress 4096 0]
      ((commandBufferSetBuffer (commandBufferConstructor (fun _ => 0) 4096).2 4096 4096 64).2,
        [])).1 4096 (word (runOps 4096 [.writeAddress 4096 0]
      ((commandBufferSetBuffer (commandBufferConstructor (fun _ => 0) 4096).2 4096 4096 64).2,
        [])).1 4 (4096 + USED_AT))) = [261, 8] := by
    decide +kernel
  refine ⟨by decide +kernel, by decide +kernel, ?_⟩
  rw [hwords, hwalk]
  decide +kernel

/-- A buffer behind its object, two appends, a reset and one more. -/
theorem appends_walk_back_small :
    let s := runOps 4096 [.writeAddress 0x1000 7, .writeAddress 0x1004 7, .reset,
      .writeAddress 0x2000 1] ((commandBufferSetBuffer
        (commandBufferConstructor (fun _ => 0) 4096).2 4096 8192 64).2, [])
    word s.1 4 (4096 + USED_AT) ≤ 64 &&& 0xffffffff ∧
      writeAddresses (wordsOf (load s.1 8192 (word s.1 4 (4096 + USED_AT)))) = .ok s.2 := by
  have h := @appends_walk_back (fun _ => 0) 4096 8192 64 (by decide) (by decide)
    (by decide +kernel) (by decide)
    [.writeAddress 0x1000 7, .writeAddress 0x1004 7, .reset, .writeAddress 0x2000 1]
    (by simp [Op.Encodable, Fits])
  exact ⟨h.1, h.2.1⟩

end Orbistoun.Gpu.Ampr
