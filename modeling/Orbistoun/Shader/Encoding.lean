import Mathlib.Data.List.Sort
import Orbistoun.Lib.Overflow
import Std.Data.TreeMap

/-! # Instruction encoding families

The table an instruction's family, length and name come from: `encoding.rs`, and the fields of
`operand.rs` it reads. A table is loaded from parsed files; every family of a loaded one is whole
dwords long.
-/

namespace Orbistoun.Shader

open Std (TreeMap)
open Orbistoun.Lib

inductive ShaderError where
  | table (message : String)
  deriving DecidableEq, Repr

/-- A field of an instruction, by its dword, its low bit and its width. -/
structure OperandField where
  shift : UInt32
  width : UInt32
  word : Nat := 0
  deriving DecidableEq, Repr

def literalMarker : UInt32 := 255

def modifierMarkers : List UInt32 := [233, 234, 249, 250]

def fieldMask (width : UInt32) : UInt32 :=
  if 32 ≤ width.toNat then 0xFFFFFFFF else ((1 : UInt32) <<< width) - 1

def OperandField.extract (o : Overflow) (f : OperandField) (word : UInt32) : Option UInt32 := do
  let shifted ← o.shr word f.shift
  return shifted &&& fieldMask f.width

/-- Whether a field selects a literal; one in a word that was not supplied does not. -/
def OperandField.selectsLiteral (o : Overflow) (f : OperandField) (words : List UInt32) :
    Option Bool :=
  match words[f.word]? with
  | none => some false
  | some word => do
      let code ← f.extract o word
      return code == literalMarker

inductive SlotKind where
  | source
  | vgpr
  | immediate
  | implicit
  deriving DecidableEq, Repr

structure OperandSlot where
  word : UInt32 := 0
  shift : UInt32
  width : UInt32
  kind : SlotKind
  scale : Option UInt32 := none
  implicit : Option String := none
  deriving DecidableEq, Repr

def OperandSlot.extract (o : Overflow) (slot : OperandSlot) (word : UInt32) : Option UInt32 := do
  let shifted ← o.shr word slot.shift
  let raw := shifted &&& fieldMask slot.width
  return match slot.scale with
    | some factor => raw * factor
    | none => raw

/-- One instruction encoding family. -/
structure Encoding where
  name : String
  mask : UInt32
  value : UInt32
  opcode : OperandField
  opcodeExtension : Option OperandField := none
  widthBytes : UInt32
  extraDwords : Option OperandField := none
  literalOperands : List OperandField := []
  modifierOperands : List OperandField := []
  operands : Option (List OperandSlot) := none
  deriving DecidableEq, Repr

namespace Encoding

def Matches (e : Encoding) (word : UInt32) : Bool := word &&& e.mask == e.value

def countOnes (w : UInt32) : Nat := (List.range 32).countP (fun i => w.toBitVec.getLsbD i)

def specificity (e : Encoding) : Nat := countOnes e.mask

def opcodeLow (o : Overflow) (e : Encoding) (words : List UInt32) : Option UInt32 :=
  match words[0]? with
  | some word => e.opcode.extract o word
  | none => some 0

/-- The order of a table: the more bits of a family's match, the earlier it is tried. -/
def TriedFirst (e e' : Encoding) : Prop := e'.specificity ≤ e.specificity

instance : DecidableRel TriedFirst :=
  fun e e' => inferInstanceAs (Decidable (e'.specificity ≤ e.specificity))

instance : Std.Total TriedFirst :=
  ⟨fun e e' => Nat.le_total e'.specificity e.specificity⟩

instance : IsTrans Encoding TriedFirst :=
  ⟨fun _ _ _ h h' => Nat.le_trans h' h⟩

def opcodeOf (o : Overflow) (e : Encoding) (words : List UInt32) : Option UInt32 := do
  let low ← e.opcodeLow o words
  match e.opcodeExtension with
  | none => return low
  | some field =>
      match words[field.word]? with
      | none => return low
      | some word => do
          let high ← field.extract o word
          let high ← o.shl high e.opcode.width
          return low ||| high

/-- The marker a source selects, when one of the family's does. -/
def modifierSelected (o : Overflow) (e : Encoding) (words : List UInt32) :
    Option (Option UInt32) :=
  e.modifierOperands.findSomeM? (fun field =>
    match words[field.word]? with
    | none => some none
    | some word => do
        let code ← field.extract o word
        return if code ∈ modifierMarkers then some code else none)

def extraBytes (o : Overflow) (e : Encoding) (words : List UInt32) : Option UInt32 :=
  match e.extraDwords with
  | none => some 0
  | some field =>
      match words[field.word]? with
      | none => some 0
      | some word => do
          let count ← field.extract o word
          o.mul count 4

def lengthBytes (o : Overflow) (e : Encoding) (words : List UInt32) : Option UInt32 := do
  let literal ← e.literalOperands.anyM (fun field => field.selectsLiteral o words)
  let extra ← e.extraBytes o words
  let modifier ← e.modifierSelected o words
  let fixed ← o.add e.widthBytes extra
  o.add fixed (if literal || modifier.isSome then 4 else 0)

/-- The fields of a family the decoder reads to tell an instruction's opcode and length. -/
def fields (e : Encoding) : List OperandField :=
  e.opcodeExtension.toList ++ e.extraDwords.toList ++ e.literalOperands ++ e.modifierOperands

/-- A family one dword wide has no field in the dword after. -/
def SelfContained (e : Encoding) : Prop :=
  e.widthBytes = 4 → ∀ f ∈ e.fields, f.word ≠ 1

instance (e : Encoding) : Decidable e.SelfContained :=
  inferInstanceAs (Decidable (_ → _))

end Encoding

/-! ## Tables -/

abbrev ByFamily (α : Type) := TreeMap String (TreeMap UInt32 α)

def ByFamily.find? {α : Type} (t : ByFamily α) (family : String) (opcode : UInt32) : Option α :=
  (t[family]?).bind (fun opcodes => opcodes[opcode]?)

def ByFamily.put {α : Type} (t : ByFamily α) (family : String) (opcode : UInt32) (value : α) :
    ByFamily α :=
  t.insert family (((t[family]?).getD ∅).insert opcode value)

structure EncodingTable where
  encodings : List Encoding
  perOpcode : ByFamily (List OperandSlot)
  names : ByFamily String
  target : String
  within : ∀ e ∈ encodings, e.value &&& ~~~e.mask = 0
  whole : ∀ e ∈ encodings, e.widthBytes ≠ 0 ∧ e.widthBytes % 4 = 0
  sorted : encodings.Pairwise Encoding.TriedFirst

structure TableFile where
  target : String := ""
  encoding : List Encoding := []

structure OpcodeOperands where
  family : String
  opcode : UInt32
  mnemonic : String := ""
  samples : UInt32 := 0
  operands : List OperandSlot

structure OpcodeOperandsFile where
  target : String := ""
  opcodeOperands : List OpcodeOperands := []

/-- A table of names: family, opcode and name, in the order of the first two. -/
structure MnemonicTable where
  entries : List (String × UInt32 × String)
  target : String

def hex (w : UInt32) : String := "0x" ++ String.ofList (Nat.toDigits 16 w.toNat)

def hexPadded (w : UInt32) : String :=
  let digits := Nat.toDigits 16 w.toNat
  "0x" ++ String.ofList (List.replicate (8 - digits.length) '0' ++ digits)

/-- What is wrong with a family, if anything is. -/
def encodingFault (e : Encoding) : Option ShaderError :=
  if e.value &&& ~~~e.mask ≠ 0 then
    some (.table ("encoding " ++ e.name ++ " has value " ++ hexPadded e.value ++
      " with bits outside its mask " ++ hexPadded e.mask))
  else if e.widthBytes = 0 ∨ e.widthBytes % 4 ≠ 0 then
    some (.table ("encoding " ++ e.name ++ " has width " ++ toString e.widthBytes.toNat ++
      " bytes; instructions are whole dwords"))
  else none

theorem encodingFault_eq_none {e : Encoding} (h : encodingFault e = none) :
    e.value &&& ~~~e.mask = 0 ∧ e.widthBytes ≠ 0 ∧ e.widthBytes % 4 = 0 := by
  unfold encodingFault at h
  split at h
  · cases h
  · next hwithin =>
    split at h
    · cases h
    · next hwhole =>
      rw [not_or] at hwhole
      exact ⟨not_not.mp hwithin, hwhole.1, not_not.mp hwhole.2⟩

namespace EncodingTable

/-- The table of no families. -/
instance : Inhabited EncodingTable where
  default :=
    { encodings := []
      perOpcode := ∅
      names := ∅
      target := ""
      within := fun _ h => absurd h List.not_mem_nil
      whole := fun _ h => absurd h List.not_mem_nil
      sorted := List.Pairwise.nil }

/-- A table of families, the most specific first whatever the file's order. -/
def load (file : TableFile) : Except ShaderError EncodingTable :=
  if file.encoding = [] then
    -- an empty table would decode every instruction as unknown
    .error (.table "the table declares no encodings")
  else
    match h : file.encoding.findSome? encodingFault with
    | some fault => .error fault
    | none =>
        have sound := fun e he => encodingFault_eq_none (List.findSome?_eq_none_iff.mp h e he)
        .ok
          { encodings := file.encoding.insertionSort Encoding.TriedFirst
            perOpcode := ∅
            names := ∅
            target := file.target
            within := fun e he => (sound e ((List.mem_insertionSort _).mp he)).1
            whole := fun e he => (sound e ((List.mem_insertionSort _).mp he)).2
            sorted := List.pairwise_insertionSort Encoding.TriedFirst file.encoding }

def isWhitespace (c : Char) : Bool :=
  let n := c.toNat
  (9 ≤ n && n ≤ 13) || n == 0x20 || n == 0x85 || n == 0xA0 || n == 0x1680 ||
    (0x2000 ≤ n && n ≤ 0x200A) || n == 0x2028 || n == 0x2029 || n == 0x202F || n == 0x205F ||
    n == 0x3000

def trim (s : String) : String :=
  String.ofList ((s.toList.dropWhile isWhitespace).reverse.dropWhile isWhitespace).reverse

/-- Refuses a file of another architecture generation. -/
def requireSameTarget (table : EncodingTable) (other what : String) : Except ShaderError Unit :=
  let other := trim other
  let mine := trim table.target
  if other = mine then .ok ()
  else
    let found := if other = "" then "declares no target" else "was generated for " ++ other
    .error (.table (what ++ " " ++ found ++ ", but the encoding families describe " ++ mine ++
      " - regenerate them, or the two disagree about what every opcode number means"))

def addOpcode (table : EncodingTable) (entry : OpcodeOperands) :
    Except ShaderError EncodingTable :=
  if entry.samples.toNat < 2 ∧ entry.operands ≠ [] then
    -- one sample cannot tell a field from a coincidence
    .error (.table (entry.family ++ ":" ++ hex entry.opcode ++ " was solved from " ++
      toString entry.samples.toNat ++ " sample(s); at least two are needed"))
  else
    .ok { table with
      names := ByFamily.put table.names entry.family entry.opcode entry.mnemonic
      perOpcode := ByFamily.put table.perOpcode entry.family entry.opcode entry.operands }

def loadOpcodeOperands (table : EncodingTable) (file : OpcodeOperandsFile) :
    Except ShaderError EncodingTable := do
  table.requireSameTarget file.target "the operand layout table"
  file.opcodeOperands.foldlM addOpcode table

def addName (table : EncodingTable) (entry : String × UInt32 × String) :
    Except ShaderError EncodingTable :=
  let (family, opcode, name) := entry
  match ByFamily.find? table.names family opcode with
  | some existing =>
      if existing ≠ name then
        .error (.table (family ++ ":" ++ hex opcode ++ " is named " ++ existing ++
          " by the probe solver and " ++ name ++
          " by the fixture generator - the two have drifted"))
      else .ok { table with names := ByFamily.put table.names family opcode name }
  | none => .ok { table with names := ByFamily.put table.names family opcode name }

def addNames (table : EncodingTable) (file : MnemonicTable) : Except ShaderError EncodingTable := do
  table.requireSameTarget file.target "the instruction name table"
  file.entries.foldlM addName table

def operandsFor (table : EncodingTable) (family : String) (opcode : UInt32) :
    Option (List OperandSlot) :=
  ByFamily.find? table.perOpcode family opcode

def mnemonicFor (table : EncodingTable) (family : String) (opcode : UInt32) : Option String :=
  ByFamily.find? table.names family opcode

/-- The first family to claim a word, if its index is a sixteen-bit one. -/
def lookup (table : EncodingTable) (word : UInt32) : Option (UInt16 × Encoding) :=
  match table.encodings.findIdx? (fun e => e.Matches word) with
  | none => none
  | some i =>
      if i < 65536 then (table.encodings[i]?).map (fun e => (UInt16.ofNat i, e)) else none

theorem mem_of_lookup {table : EncodingTable} {word : UInt32} {index : UInt16} {e : Encoding}
    (h : table.lookup word = some (index, e)) :
    e ∈ table.encodings ∧ table.encodings[index.toNat]? = some e := by
  unfold lookup at h
  split at h
  · cases h
  · next i hi =>
    split at h
    · next hlt =>
      obtain ⟨e', he', heq⟩ := Option.map_eq_some_iff.mp h
      cases heq
      rw [UInt16.toNat_ofNat_of_lt' hlt]
      exact ⟨List.mem_of_getElem? he', he'⟩
    · cases h

/-- Wherever the table names a program's end, the family is told apart by its own dwords. -/
def EndsAlone (table : EncodingTable) : Prop :=
  ∀ e ∈ table.encodings, ∀ opcode, table.mnemonicFor e.name opcode = some "s_endpgm" →
    e.SelfContained

end EncodingTable

end Orbistoun.Shader
