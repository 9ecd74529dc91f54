import Orbistoun.Shader.Encoding

/-! # Walking a shader into instructions

`decode.rs`: what each instruction is, how long, and where the walk stops. An overflow in a build
that checks for it has no result; neither has a walk that never gets past an instruction whose
length wrapped to nothing.
-/

namespace Orbistoun.Shader

open Orbistoun.Lib

def minInstructionBytes : UInt32 := 4

inductive Operand where
  | scalar (n : UInt16)
  | vector (n : UInt16)
  | named (name : String)
  | integer (v : Int)
  | literal (v : UInt32)
  | immediate (v : Int)
  | unrecognised (code : UInt16)
  deriving DecidableEq, Repr

inductive RangeKind where
  | sgpr
  | vgpr
  | named
  | integer
  | negativeInteger
  | literal
  deriving DecidableEq, Repr

structure CodeRange where
  first : UInt32
  last : UInt32
  kind : RangeKind
  name : Option String := none
  origin : Option UInt32 := none

/-- The unified source-operand space. -/
structure OperandTable where
  ranges : List CodeRange

/-- `u16::try_from` with its largest for what does not fit. -/
def toU16 (x : UInt32) : UInt16 := if x.toNat < 65536 then UInt16.ofNat x.toNat else 0xFFFF

namespace OperandTable

def rangeFor (t : OperandTable) (code : UInt32) : Option CodeRange :=
  t.ranges.find? (fun r => decide (r.first.toNat ≤ code.toNat ∧ code.toNat ≤ r.last.toNat))

/-- What a source-operand code names, given the literal that follows if one does. -/
def classify (o : Overflow) (t : OperandTable) (code : UInt32) (literal : Option UInt32) :
    Option Operand :=
  match t.rangeFor code with
  | none => some (.unrecognised (toU16 code))
  | some range =>
      let origin := range.origin.getD range.first
      match range.kind with
      | .sgpr => (o.sub code origin).map (fun n => .scalar (toU16 n))
      | .vgpr => (o.sub code origin).map (fun n => .vector (toU16 n))
      | .named => some (range.name.elim (.unrecognised 0xFFFF) .named)
      | .integer => some (.integer ((code.toNat : Int) - origin.toNat))
      | .negativeInteger => some (.integer (-((code.toNat : Int) - origin.toNat)))
      | .literal => some (literal.elim (.unrecognised (toU16 code)) .literal)

end OperandTable

structure Instruction where
  offset : UInt32
  length : UInt32
  word : UInt32
  secondWord : Option UInt32
  words : List UInt32
  encoding : Option UInt16
  opcode : UInt32
  operands : List Operand
  operandsDecoded : Bool
  deriving DecidableEq, Repr

/-- The result of walking one shader. -/
structure Decode where
  instructions : List Instruction := []
  desynchronised : Bool := false
  overran : Bool := false
  trailingBytes : Nat := 0
  terminated : Bool := false
  consumed : Nat := 0
  deriving DecidableEq, Repr

def fromLeBytes (a b c d : UInt8) : UInt32 :=
  a.toUInt32 ||| (b.toUInt32 <<< (8 : UInt32)) ||| (c.toUInt32 <<< (16 : UInt32)) |||
    (d.toUInt32 <<< (24 : UInt32))

/-- A little-endian word, unless it would run past the buffer. -/
def readWord (bytes : List UInt8) (at_ : Nat) : Option UInt32 :=
  match bytes.drop at_ with
  | a :: b :: c :: d :: _ => some (fromLeBytes a b c d)
  | _ => none

/-- The words of an instruction, as far as the buffer holds them. -/
def readWords (bytes : List UInt8) : Nat → Nat → List UInt32
  | _, 0 => []
  | at_, n + 1 =>
      match readWord bytes at_ with
      | some word => word :: readWords bytes (at_ + 4) n
      | none => []

/-- One instruction, as far as the tables can describe it. -/
structure Recognised where
  length : UInt32
  encoding : Option UInt16
  opcode : UInt32
  operands : List Operand
  hasLayout : Bool
  secondWord : Option UInt32

def maxWord (a b : UInt32) : UInt32 := if a.toNat ≤ b.toNat then b else a

/-- The bytes a layout reads of an instruction. -/
def laidOut (o : Overflow) (slots : Option (List OperandSlot)) : Option UInt32 :=
  match slots with
  | none => some 0
  | some slots => do
      let ends ← (slots.filter (fun slot => slot.kind ≠ .implicit)).mapM (fun slot => do
        let next ← o.add slot.word 1
        o.mul next 4)
      return ends.foldl maxWord 0

/-- The word an operand slot reads: one of the instruction's own. -/
def sourceWord (o : Overflow) (bytes : List UInt8) (offset : Nat) (word : UInt32)
    (own : UInt32) (slot : OperandSlot) : Option (Option UInt32) :=
  if slot.word = 0 then some (some word)
  else do
    let at_ ← o.mul slot.word 4
    return if at_.toNat < own.toNat then readWord bytes (offset + slot.word.toNat * 4) else none

def decodeSlot (o : Overflow) (bytes : List UInt8) (offset : Nat) (word : UInt32)
    (operands : OperandTable) (literal : Option UInt32) (own : UInt32) (slot : OperandSlot) :
    Option Operand :=
  if slot.kind = .implicit then some (slot.implicit.elim (.unrecognised 0xFFFF) .named)
  else do
    match ← sourceWord o bytes offset word own slot with
    | none => return .unrecognised 0xFFFF
    | some w =>
        let code ← slot.extract o w
        match slot.kind with
        | .source => operands.classify o code literal
        | .vgpr => return .vector (toU16 code)
        | .immediate => return .immediate code.toNat
        | .implicit => return .unrecognised 0xFFFF

def describe (o : Overflow) (bytes : List UInt8) (offset : Nat) (word : UInt32)
    (table : EncodingTable) (operands : OperandTable) (index : UInt16) (found : Encoding) :
    Option Recognised := do
  -- both words: a family of two can select a literal from its second
  let words := word :: (readWord bytes (offset + 4)).toList
  let opcode ← found.opcodeOf o words
  let slots := (table.operandsFor found.name opcode).or found.operands
  let laid ← laidOut o slots
  let own := maxWord found.widthBytes laid
  let length ← found.lengthBytes o words
  let length := maxWord length laid
  let modified := (← found.modifierSelected o words).isSome
  let literal :=
    if found.widthBytes.toNat < length.toNat ∧ modified = false then
      readWord bytes (offset + found.widthBytes.toNat)
    else none
  let decoded ← (slots.getD []).mapM (decodeSlot o bytes offset word operands literal own)
  return {
    length
    encoding := some index
    opcode
    operands := decoded
    hasLayout := slots.isSome
    secondWord :=
      if 8 ≤ found.widthBytes.toNat ∨ modified = true then readWord bytes (offset + 4) else none }

def recognise (o : Overflow) (bytes : List UInt8) (offset : Nat) (word : UInt32)
    (table : EncodingTable) (operands : OperandTable) (result : Decode) :
    Option (Recognised × Decode) :=
  match table.lookup word with
  | some (index, found) => do
      let recognised ← describe o bytes offset word table operands index found
      return (recognised, result)
  | none =>
      -- length unknown: advance minimally
      some ({
        length := minInstructionBytes
        encoding := none
        opcode := 0
        operands := []
        hasLayout := false
        secondWord := none }, { result with desynchronised := true })

def programEnd : String := "s_endpgm"

def padding : String := "s_code_end"

structure Walk where
  offset : Nat
  furthestBranch : Nat
  result : Decode

/-- Which of the walk's ways out was taken. -/
inductive Exit where
  | window
  | overran
  | padding
  | ended
  deriving DecidableEq, Repr

def saturate (n : Nat) : UInt32 := if n < 2 ^ 32 then UInt32.ofNat n else 0xFFFFFFFF

def nameOf (table : EncodingTable) (encoding : Option UInt16) (opcode : UInt32) : Option String :=
  encoding.bind (fun index =>
    (table.encodings[index.toNat]?).bind (fun found => table.mnemonicFor found.name opcode))

/-- A branch's sixteen-bit word count, signed. -/
def branchWords (word : UInt32) : Int :=
  let low : Int := (word.toNat % 65536 : Nat)
  if low < 32768 then low else low - 65536

def reach (furthest next : Nat) (word : UInt32) (name : Option String) : Nat :=
  match name with
  | none => furthest
  | some name =>
      if name = "s_branch" ∨ "s_cbranch_".isPrefixOf name = true then
        let target : Int := next + branchWords word * 4
        if 0 ≤ target then max furthest target.toNat else furthest
      else furthest

def record (bytes : List UInt8) (offset : Nat) (word : UInt32) (seen : Recognised) :
    Instruction where
  offset := saturate offset
  length := seen.length
  word := word
  secondWord := seen.secondWord
  words := readWords bytes offset ((seen.length.toNat + 3) / 4)
  encoding := seen.encoding
  opcode := seen.opcode
  operands := seen.operands
  operandsDecoded := seen.hasLayout

def settle (bytes : List UInt8) (table : EncodingTable) (stopAtEnd : Bool) (w : Walk)
    (word : UInt32) (seen : Recognised) (result : Decode) : Walk ⊕ Decode × Exit :=
  let instruction := record bytes w.offset word seen
  let next := w.offset + seen.length.toNat
  let pushed := { result with instructions := result.instructions ++ [instruction] }
  if bytes.length < next then
    -- the instruction claims to extend past the buffer
    .inr ({ pushed with overran := true, consumed := w.offset }, .overran)
  else
    let named := nameOf table seen.encoding seen.opcode
    let furthest := reach w.furthestBranch next word named
    if named = some padding then
      .inr ({ result with consumed := w.offset, trailingBytes := 0 }, .padding)
    else if named = some programEnd then
      if stopAtEnd = true ∧ furthest < next then
        .inr ({ pushed with terminated := true, trailingBytes := 0, consumed := next }, .ended)
      else .inl ⟨next, furthest, { pushed with terminated := true }⟩
    else .inl ⟨next, furthest, pushed⟩

/-- One instruction of the walk: on to the next, or out. -/
def visit (o : Overflow) (bytes : List UInt8) (table : EncodingTable) (operands : OperandTable)
    (stopAtEnd : Bool) (w : Walk) (word : UInt32) : Option (Walk ⊕ Decode × Exit) := do
  let (seen, result) ← recognise o bytes w.offset word table operands w.result
  return settle bytes table stopAtEnd w word seen result

def walk (o : Overflow) (bytes : List UInt8) (table : EncodingTable) (operands : OperandTable)
    (stopAtEnd : Bool) : Nat → Walk → Option (Decode × Exit)
  | fuel, w =>
      match readWord bytes w.offset with
      | none => some ({ w.result with consumed := w.offset }, .window)
      | some word =>
          match fuel with
          | 0 => none
          | fuel + 1 => do
              match ← visit o bytes table operands stopAtEnd w word with
              | .inl w => walk o bytes table operands stopAtEnd fuel w
              | .inr out => return out

/-- The whole walk; an instruction takes a byte at least, so the bytes are fuel enough. -/
def decodeInner (o : Overflow) (bytes : List UInt8) (table : EncodingTable)
    (operands : OperandTable) (stopAtEnd : Bool) : Option (Decode × Exit) :=
  walk o bytes table operands stopAtEnd bytes.length
    ⟨0, 0, { trailingBytes := bytes.length % 4 }⟩

def decode (o : Overflow) (bytes : List UInt8) (table : EncodingTable) (operands : OperandTable) :
    Option Decode :=
  (decodeInner o bytes table operands false).map Prod.fst

/-- A shader with no declared length, as far as the instruction that ends it. -/
def decodeProgram (o : Overflow) (bytes : List UInt8) (table : EncodingTable)
    (operands : OperandTable) : Option Decode :=
  (decodeInner o bytes table operands true).map Prod.fst

end Orbistoun.Shader
