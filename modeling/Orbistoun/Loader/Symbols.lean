import Orbistoun.Loader.Checked
import Orbistoun.Loader.GnuHash

/-! # Symbols, with the arithmetic checked

What a module imports, provides and needs, read through its dynamic table. Sizes and
positions here come from the table itself: a string table's size, a vendor table's offset
and a symbol's size are used as the file states them.
-/

namespace Orbistoun.Loader.Checked

open Orbistoun.Lib.U64 (bound saturatingAdd checkedAdd)
open Orbistoun.Lib.Trap
open Orbistoun.Loader.GnuHash (MAX_SYMBOLS HEADER)

/-! ## The dynamic table -/

namespace Tag

def NEEDED : Nat := 1
def STRSZ : Nat := 10
def SYMENT : Nat := 11
def SCE_STRSZ : Nat := 0x61000037
def SCE_SYMENT : Nat := 0x6100003B
def SCE_IMPORT_LIB : Nat := 0x61000049
def SCE_IMPORT_MODULE : Nat := 0x61000045

end Tag

/-- What the loop of `DynamicInfo::parse` collects for names and symbols. -/
structure Noted where
  strsz : Nat
  syment : Nat
  vendorStrsz : Nat
  vendorSyment : Nat
  needed : List Nat
  libraries : List Nat
  modules : List Nat
  deriving DecidableEq, Repr

def note (n : Noted) (tag value : Nat) : Noted :=
  if tag = Tag.NEEDED then { n with needed := n.needed ++ [value] }
  else if tag = Tag.STRSZ then { n with strsz := value }
  else if tag = Tag.SYMENT then { n with syment := value }
  else if tag = Tag.SCE_IMPORT_LIB then { n with libraries := n.libraries ++ [value] }
  else if tag = Tag.SCE_IMPORT_MODULE then { n with modules := n.modules ++ [value] }
  else if tag = Tag.SCE_STRSZ then { n with vendorStrsz := value }
  else if tag = Tag.SCE_SYMENT then { n with vendorSyment := value }
  else n

def noteAll : Noted → List (List Byte) → Noted
  | n, [] => n
  | n, chunk :: rest =>
      if field chunk 0 8 = 0 then n
      else noteAll (note n (field chunk 0 8) (field chunk 8 8)) rest

/-- The dynamic table's contents, as far as a symbol walk needs them. -/
structure SymbolInfo where
  tables : DynamicInfo
  strsz : Nat
  syment : Nat
  needed : List Nat
  libraries : List Nat
  modules : List Nat
  deriving DecidableEq, Repr

def SymbolInfo.parse (bytes : List Byte) : SymbolInfo :=
  let tables := DynamicInfo.parse bytes
  let n := noteAll ⟨0, 0, 0, 0, [], [], []⟩ (chunksExact DYNAMIC_ENTRY_SIZE bytes)
  { tables := tables
    strsz := if tables.vendorTables then n.vendorStrsz else n.strsz
    syment := if tables.vendorTables then n.vendorSyment else n.syment
    needed := n.needed
    libraries := n.libraries
    modules := n.modules }

/-! ## Counting symbols -/

/-- Reads `nchain` from a hash table already located in the file. -/
def symbolCountAt (whole : List Byte) (hashAt : Nat) : Run ElfError Nat := do
  let start ← add hashAt 4
  let stop ← add hashAt 8
  match Container.getRange whole start stop with
  | some bytes => pure (leValue bytes)
  | none => refuse (.noDynamicTable "hash table is truncated")

def word (table : List Byte) (at' : Nat) : Run ElfError Nat := do
  let stop ← add at' 4
  match Container.getRange table at' stop with
  | some bytes => pure (leValue bytes)
  | none => refuse (.noDynamicTable "GNU hash table is truncated")

def highestBucket (table : List Byte) (bucketsAt : Nat) : Nat → Nat → Nat → Run ElfError Nat
  | _, 0, highest => pure highest
  | bucket, left + 1, highest => do
      let scaled ← mul bucket 4
      let at' ← add bucketsAt scaled
      let value ← word table at'
      highestBucket table bucketsAt (bucket + 1) left (max highest value)

def chainEnd (table : List Byte) (chainAt bias : Nat) (index : Nat) : Run ElfError Nat := do
  let offset ← sub index bias
  let scaled ← mul offset 4
  let at' ← add chainAt scaled
  let entry ← word table at'
  if entry % 2 = 1 then add index 1
  else if 2 ^ 32 ≤ index + 1 then refuse (.noDynamicTable "GNU hash table is truncated")
  else if h : MAX_SYMBOLS < index + 1 then refuse (.noDynamicTable "GNU hash chain has no end")
  else chainEnd table chainAt bias (index + 1)
  termination_by MAX_SYMBOLS - index
  decreasing_by omega

def symbolCountFromGnuHash (table : List Byte) : Run ElfError Nat := do
  let buckets ← word table 0
  let bias ← word table 4
  let bloomWords ← word table 8
  if MAX_SYMBOLS < buckets ∨ MAX_SYMBOLS < bloomWords then
    refuse (.noDynamicTable "GNU hash table declares an absurd size")
  else do
    let bloom ← mul bloomWords 8
    let bucketsAt ← add HEADER bloom
    let highest ← highestBucket table bucketsAt 0 buckets 0
    if highest < bias then pure bias
    else do
      let bucketBytes ← mul buckets 4
      let chainAt ← add bucketsAt bucketBytes
      chainEnd table chainAt bias highest

theorem word_exact {table : List Byte} {at' : Nat} (h : at' + 4 < bound) :
    word table at' = lift (GnuHash.word table at').answer := by
  have hadd : (add at' 4 : Run ElfError Nat) = .ok (at' + 4) := add_ok h
  simp only [word, GnuHash.word, hadd, bind, Except.bind]
  cases Container.getRange table at' (at' + 4) <;> rfl

theorem highestBucket_exact {table : List Byte} {bucketsAt bucket left highest : Nat}
    (h : bucketsAt + (bucket + left) * 4 + 4 < bound) :
    highestBucket table bucketsAt bucket left highest =
      lift (GnuHash.highestBucket table bucketsAt bucket left highest).answer := by
  induction left generalizing bucket highest with
  | zero => rfl
  | succ left ih =>
      have hmul : (mul bucket 4 : Run ElfError Nat) = .ok (bucket * 4) := mul_ok (by omega)
      have hadd : (add bucketsAt (bucket * 4) : Run ElfError Nat) =
          .ok (bucketsAt + bucket * 4) := add_ok (by omega)
      rw [highestBucket, GnuHash.highestBucket, GnuHash.Reading.answer_bind, lift_bind, hmul]
      simp only [bind, Except.bind, hadd]
      rw [word_exact (by omega)]
      cases (GnuHash.word table (bucketsAt + bucket * 4)).answer with
      | error e => rfl
      | ok value => exact ih (by omega)

theorem highestBucket_lt {table : List Byte} {bucketsAt bucket left highest value : Nat}
    (hlow : highest < 2 ^ 32)
    (h : (GnuHash.highestBucket table bucketsAt bucket left highest).answer = .ok value) :
    value < 2 ^ 32 := by
  induction left generalizing bucket highest with
  | zero => rwa [← Except.ok.inj h]
  | succ left ih =>
      obtain ⟨read, hread, hrest⟩ := GnuHash.Reading.of_bind_ok h
      have hword : read < 2 ^ 32 := by
        rw [← ((GnuHash.word_ok_iff _ _ _).mp hread).2]
        exact field_lt table _ 4
      exact ih (max_lt hlow hword) hrest

theorem chainEnd_exact {table : List Byte} {chainAt bias index : Nat} (hbias : bias ≤ index)
    (hindex : index < 2 ^ 32) (h : chainAt + 2 ^ 34 + 4 < bound) :
    chainEnd table chainAt bias index =
      lift (GnuHash.chainEnd table chainAt bias index).answer := by
  fun_induction GnuHash.chainEnd table chainAt bias index with
  | case1 index ih =>
      have hsub : (sub index bias : Run ElfError Nat) = .ok (index - bias) := sub_ok hbias
      have hmul : (mul (index - bias) 4 : Run ElfError Nat) = .ok ((index - bias) * 4) :=
        mul_ok (by omega)
      have hadd : (add chainAt ((index - bias) * 4) : Run ElfError Nat) =
          .ok (chainAt + (index - bias) * 4) := add_ok (by omega)
      have hnext : (add index 1 : Run ElfError Nat) = .ok (index + 1) := add_ok (by omega)
      rw [chainEnd, GnuHash.Reading.answer_bind, lift_bind, hsub]
      simp only [bind, Except.bind, hmul, hadd]
      rw [word_exact (by omega)]
      cases (GnuHash.word table (chainAt + (index - bias) * 4)).answer with
      | error e => rfl
      | ok entry =>
          simp only [lift_ok]
          split
          · exact hnext
          · split
            · rfl
            · split
              · rfl
              · next hend => exact ih hend (by omega) (by omega)

theorem symbolCountFromGnuHash_exact (table : List Byte) :
    symbolCountFromGnuHash table = lift (GnuHash.symbolCountFromGnuHash table) := by
  have hword : 12 < bound := by decide
  have hceiling : MAX_SYMBOLS = 1000000 := rfl
  have hheader : HEADER = 16 := rfl
  have hbound : bound = 18446744073709551616 := by decide
  unfold symbolCountFromGnuHash GnuHash.symbolCountFromGnuHash GnuHash.walk
  rw [GnuHash.Reading.answer_bind, lift_bind, word_exact (by omega)]
  congr 1
  funext buckets
  rw [GnuHash.Reading.answer_bind, lift_bind, word_exact (by omega)]
  congr 1
  funext bias
  rw [GnuHash.Reading.answer_bind, lift_bind, word_exact (by omega)]
  congr 1
  funext bloomWords
  split
  · rfl
  · next hsize =>
    have hmul : (mul bloomWords 8 : Run ElfError Nat) = .ok (bloomWords * 8) := mul_ok (by omega)
    have hadd : (add HEADER (bloomWords * 8) : Run ElfError Nat) =
        .ok (HEADER + bloomWords * 8) := add_ok (by omega)
    have hmul' : (mul buckets 4 : Run ElfError Nat) = .ok (buckets * 4) := mul_ok (by omega)
    have hadd' : (add (HEADER + bloomWords * 8) (buckets * 4) : Run ElfError Nat) =
        .ok (HEADER + bloomWords * 8 + buckets * 4) := add_ok (by omega)
    simp only [hmul, bind, Except.bind, hadd]
    have hbuckets := @highestBucket_exact table (HEADER + bloomWords * 8) 0 buckets 0 (by omega)
    rw [hbuckets]
    cases hanswer : (GnuHash.highestBucket table (HEADER + bloomWords * 8) 0 buckets 0).answer with
    | error e =>
        have hread := GnuHash.Reading.bind_error (f := fun highest =>
          if highest < bias then pure bias
          else GnuHash.chainEnd table (HEADER + bloomWords * 8 + buckets * 4) bias highest) hanswer
        exact (congrArg lift hread).symm
    | ok highest =>
        have hread := GnuHash.Reading.bind_ok (f := fun highest =>
          if highest < bias then pure bias
          else GnuHash.chainEnd table (HEADER + bloomWords * 8 + buckets * 4) bias highest) hanswer
        refine Eq.trans ?_ (congrArg lift hread).symm
        simp only [lift_ok]
        split
        · rfl
        · next hlow =>
          have hhighest := highestBucket_lt (by decide) hanswer
          simp only [hmul', hadd']
          exact chainEnd_exact (by omega) hhighest (by omega)

/-! ## Names and symbols -/

/-- Size of one `Elf64_Sym`. -/
def SYMBOL_SIZE : Nat := 24

/-- What an encoded name decodes to. -/
structure EncodedImport where
  nid : Nat
  libraryId : Nat
  moduleId : Nat
  deriving DecidableEq, Repr

inductive Kind where
  | function
  | object
  | unspecified
  deriving DecidableEq, Repr

def Kind.fromInfo (info : Nat) : Kind :=
  if info % 16 = 1 then .object else if info % 16 = 2 then .function else .unspecified

inductive Binding where
  | «local»
  | global
  | weak
  | unspecified
  deriving DecidableEq, Repr

def Binding.fromInfo (info : Nat) : Binding :=
  if info / 16 = 0 then .local
  else if info / 16 = 1 then .global
  else if info / 16 = 2 then .weak
  else .unspecified

inductive NameForm where
  | encoded (libraryId moduleId : Nat)
  | plain
  deriving DecidableEq, Repr

structure RawImport where
  symbolIndex : Nat
  nid : Nat
  form : NameForm
  kind : Kind
  binding : Binding
  name : String
  deriving DecidableEq, Repr

structure RawExport where
  symbolIndex : Nat
  nid : Nat
  form : NameForm
  kind : Kind
  name : String
  offset : Nat
  deriving DecidableEq, Repr

/-- Splits a vendor table entry into its id and its name offset. -/
def splitTableEntry (value : Nat) : Nat × Nat := (value / 2 ^ 48 % 2 ^ 16, value % 2 ^ 32)

def readCstr (table : List Byte) (offset : Nat) : Run ElfError (Option String) :=
  if table.length < offset then pure none
  else do
    let rest := table.drop offset
    let name ← slice rest 0 (rest.findIdx (· == 0))
    pure (String.fromUTF8? ⟨name.toArray⟩)

/-- The number in the bytes of an entry from one index up to another. -/
def entryField (entry : List Byte) (start stop : Nat) : Run ElfError Nat := do
  let bytes ← slice entry start stop
  pure (leValue bytes)

section

-- How an encoded name decodes, and the hash a plain one is known by.
variable (decode : String → Option EncodedImport) (hash : String → Nat)

def importAt (strings : List Byte) (index : Nat) (entry : List Byte) :
    Run ElfError (Option RawImport) := do
  let nameOff ← entryField entry 0 4
  let info ← entryField entry 4 5
  let shndx ← entryField entry 6 8
  if shndx ≠ 0 ∨ nameOff = 0 then pure none
  else do
    match ← readCstr strings nameOff with
    | none => pure none
    | some name =>
        let atIndex := min index (2 ^ 32 - 1)
        match decode name with
        | some d => pure (some ⟨atIndex, d.nid, .encoded d.libraryId d.moduleId,
            Kind.fromInfo info, Binding.fromInfo info, name⟩)
        | none => pure (some ⟨atIndex, hash name, .plain, Kind.fromInfo info,
            Binding.fromInfo info, name⟩)

def exportAt (strings : List Byte) (index : Nat) (entry : List Byte) :
    Run ElfError (Option RawExport) := do
  let nameOff ← entryField entry 0 4
  let info ← entryField entry 4 5
  let shndx ← entryField entry 6 8
  if shndx = 0 ∨ nameOff = 0 then pure none
  else do
    let offset ← entryField entry 8 16
    match ← readCstr strings nameOff with
    | none => pure none
    | some name =>
        let atIndex := min index (2 ^ 32 - 1)
        match decode name with
        | some d => pure (some ⟨atIndex, d.nid, .encoded d.libraryId d.moduleId,
            Kind.fromInfo info, name, offset⟩)
        | none => pure (some ⟨atIndex, hash name, .plain, Kind.fromInfo info, name, offset⟩)

/-- The loop over the symbol table, up to the first entry it does not hold. -/
def symbolWalk {α : Type} (one : Nat → List Byte → Run ElfError (Option α))
    (symbols : List Byte) (stride : Nat) : Nat → Nat → Run ElfError (List α)
  | _, 0 => pure []
  | index, left + 1 => do
      -- `saturating_mul`
      let at' := min (index * stride) (bound - 1)
      let stop ← add at' SYMBOL_SIZE
      match Container.getRange symbols at' stop with
      | none => pure []
      | some entry => do
          let found ← one index entry
          let rest ← symbolWalk one symbols stride (index + 1) left
          pure (found.toList ++ rest)

def strideOf (syment : Nat) : Nat := if syment = 0 then SYMBOL_SIZE else syment

/-- `imports_from_symbols` and `exports_from_symbols`: one walk, and what is kept of a symbol. -/
def fromSymbols {α : Type} (one : Nat → List Byte → Run ElfError (Option α))
    (symbols : List Byte) (count syment : Nat) : Run ElfError (List α) :=
  if MAX_SYMBOLS < count then refuse (.absurdSymbolCount count MAX_SYMBOLS)
  else symbolWalk one symbols (strideOf syment) 0 count

/-! ## The tables -/

-- The program header type of the vendor data segment, a number of the platform's.
variable (sceDynlibdata : Nat)

def vendorDataOffset (c : Container) (whole : List Byte) : Run ElfError (Option Nat) := do
  let headers ← programHeaders c
  match headers.zipIdx.find? (fun e => e.1.pType == sceDynlibdata) with
  | none => pure none
  | some (ph, index) =>
      match c.wrapper with
      | none => pure (if ph.offset ≤ whole.length then some ph.offset else none)
      | some wrapper => do
          let segments ← segments wrapper whole
          match segments.find? (fun s => s.hasData && s.programHeaderIndex == index) with
          | none => pure none
          | some s => pure (if s.range.1 ≤ whole.length then some s.range.1 else none)

def tableOffset (c : Container) (whole : List Byte) (info : DynamicInfo) (value : Nat) :
    Run ElfError (Option Nat) :=
  if info.vendorTables then do
    match ← vendorDataOffset sceDynlibdata c whole with
    | none => pure none
    | some base => pure (checkedAdd base value)
  else vaddrToOffset c whole value

def countSymbols (c : Container) (whole : List Byte) (info : DynamicInfo) :
    Run ElfError (Option Nat) := do
  let byHash ← if info.vendorTables ∨ info.hash ≠ 0 then
      tableOffset sceDynlibdata c whole info info.hash
    else pure none
  match byHash with
  | some at' => some <$> symbolCountAt whole at'
  | none =>
      if ¬ info.vendorTables ∧ info.gnuHash ≠ 0 then do
        match ← tableOffset sceDynlibdata c whole info info.gnuHash with
        | some at' => some <$> symbolCountFromGnuHash (whole.drop at')
        | none => pure none
      else pure none

def symbolCount (c : Container) (whole : List Byte) : Run ElfError Nat := do
  match ← dynamicBytes c whole with
  | none => pure 0
  | some bytes => do
      let count ← countSymbols sceDynlibdata c whole (SymbolInfo.parse bytes).tables
      pure (count.getD 0)

/-- The string table's bytes: a plain sum, then `whole.get`. -/
def stringTable (whole : List Byte) (strtabAt strsz : Nat) : Run ElfError (List Byte) := do
  let stop ← add strtabAt strsz
  pure ((Container.getRange whole strtabAt stop).getD [])

/-- `ok_or` of a located position. -/
def located (position : Option Nat) (reason : String) : Run ElfError Nat :=
  match position with
  | some at' => pure at'
  | none => refuse (.noDynamicTable reason)

/-- The dynamic symbol table, its strings, how many symbols there are, and the entry size. -/
structure SymbolTables where
  symbols : List Byte
  strings : List Byte
  count : Nat
  syment : Nat
  deriving DecidableEq, Repr

def symbolTables (c : Container) (whole : List Byte) : Run ElfError SymbolTables := do
  match ← dynamicBytes c whole with
  | none =>
      refuse (.noDynamicTable "no PT_DYNAMIC segment, or its address could not be located")
  | some bytes =>
      let info := SymbolInfo.parse bytes
      if !info.tables.isUsable then
        refuse (.noDynamicTable
          "dynamic table lacks a string table, symbol table, or hash table")
      else do
        let strtab ← tableOffset sceDynlibdata c whole info.tables info.tables.strtab
        let strtabAt ← located strtab "string table address is unmapped"
        let symtab ← tableOffset sceDynlibdata c whole info.tables info.tables.symtab
        let symtabAt ← located symtab "symbol table address is unmapped"
        let counted ← countSymbols sceDynlibdata c whole info.tables
        let count ← located counted "hash table address is unmapped"
        let strings ← stringTable whole strtabAt info.strsz
        pure ⟨whole.drop symtabAt, strings, count, info.syment⟩

def rawImports (c : Container) (whole : List Byte) : Run ElfError (List RawImport) := do
  let t ← symbolTables sceDynlibdata c whole
  fromSymbols (importAt decode hash t.strings) t.symbols t.count t.syment

def rawExports (c : Container) (whole : List Byte) : Run ElfError (List RawExport) := do
  let t ← symbolTables sceDynlibdata c whole
  fromSymbols (exportAt decode hash t.strings) t.symbols t.count t.syment

def namesAt (strings : List Byte) : List Nat → Run ElfError (List String)
  | [] => pure []
  | offset :: rest => do
      let name ← readCstr strings offset
      let names ← namesAt strings rest
      pure (name.toList ++ names)

/-- The names a vendor table's entries give their ids, later entries over earlier ones. -/
def namesById (strings : List Byte) : List Nat → Run ElfError (List (Nat × String))
  | [] => pure []
  | entry :: rest => do
      let (id, offset) := splitTableEntry entry
      let name ← readCstr strings offset
      let names ← namesById strings rest
      if names.any (fun e => e.1 == id) then pure names
      else pure ((name.map fun name => (id, name)).toList ++ names)

/-- What the three readers of the string table share: where nothing is located, nothing is
named. -/
def named {α : Type} (c : Container) (whole : List Byte)
    (names : SymbolInfo → List Byte → Run ElfError (List α)) : Run ElfError (List α) := do
  match ← dynamicBytes c whole with
  | none => pure []
  | some bytes => do
      let info := SymbolInfo.parse bytes
      match ← tableOffset sceDynlibdata c whole info.tables info.tables.strtab with
      | none => pure []
      | some strtabAt => do
          let strings ← stringTable whole strtabAt info.strsz
          names info strings

def importLibraries (c : Container) (whole : List Byte) : Run ElfError (List (Nat × String)) :=
  named sceDynlibdata c whole (fun info strings => namesById strings info.libraries)

def neededLibraries (c : Container) (whole : List Byte) : Run ElfError (List String) :=
  named sceDynlibdata c whole (fun info strings => namesAt strings info.needed)

end

/-! ## A module's own symbol table -/

def sectionHeaderSize : Nat := 64

def SHT_SYMTAB : Nat := 2

def STT_FUNC : Nat := 2

structure Elf64SectionHeader where
  shType : Nat
  offset : Nat
  size : Nat
  link : Nat
  deriving DecidableEq, Repr

/-- One function a module names in its own symbol table, the name as the bytes spell it. -/
structure StaticSymbol where
  name : List Byte
  value : Nat
  size : Nat
  deriving DecidableEq, Repr

def checkedMul (x y : Nat) : Option Nat := if x * y < bound then some (x * y) else none

def sectionHeader (table : List Byte) (entry index : Nat) :
    Run ElfError (Option Elf64SectionHeader) :=
  match checkedMul index entry with
  | none => pure none
  | some at' => do
      let stop ← add at' sectionHeaderSize
      match Container.getRange table at' stop with
      | none => pure none
      | some b => pure (some ⟨field b 4 4, field b 24 8, field b 32 8, field b 40 4⟩)

def contents (whole : List Byte) (header : Elf64SectionHeader) : Option (List Byte) :=
  Container.getChecked whole header.offset header.size

/-- The loop of `symtab_bytes`, over the sections from an index on. -/
def symtabFrom (whole table : List Byte) (entry : Nat) :
    Nat → Nat → Run ElfError (Option (List Byte × List Byte))
  | _, 0 => pure none
  | index, left + 1 => do
      match ← sectionHeader table entry index with
      | none => pure none
      | some header =>
          if header.shType ≠ SHT_SYMTAB then symtabFrom whole table entry (index + 1) left
          else do
            match ← sectionHeader table entry header.link with
            | none => pure none
            | some strings =>
                pure ((contents whole header).bind fun a =>
                  (contents whole strings).map fun b => (a, b))

/-- The bytes of the first `SHT_SYMTAB` and of the string table it links to. -/
def symtabBytes (c : Container) (whole : List Byte) :
    Run ElfError (Option (List Byte × List Byte)) :=
  let entry := field c.bytes 58 2
  let count := field c.bytes 60 2
  let start := field c.bytes 40 8
  if entry < sectionHeaderSize then pure none
  else
    match checkedMul count entry with
    | none => pure none
    | some size =>
        match Container.getChecked whole start size with
        | none => pure none
        | some table => symtabFrom whole table entry 0 count

/-- A NUL-terminated name at `offset`, when the offset is inside the table. -/
def stringAt (strings : List Byte) (offset : Nat) : Run ElfError (Option (List Byte)) :=
  if strings.length < offset then pure none
  else do
    let rest := strings.drop offset
    let name ← slice rest 0 (rest.findIdx (· == 0))
    pure (some name)

/-- What is kept of an entry: a named function with an address. -/
def staticSymbol (strings entry : List Byte) : Run ElfError (Option StaticSymbol) :=
  if field entry 4 1 % 16 ≠ STT_FUNC ∨ field entry 8 8 = 0 then pure none
  else do
    match ← stringAt strings (field entry 0 4) with
    | none => pure none
    | some name =>
        if name.isEmpty then pure none
        else pure (some ⟨name, field entry 8 8, field entry 16 8⟩)

def staticSymbols (strings : List Byte) : List (List Byte) → Run ElfError (List StaticSymbol)
  | [] => pure []
  | entry :: rest => do
      let found ← staticSymbol strings entry
      let symbols ← staticSymbols strings rest
      pure (found.toList ++ symbols)

def functionSymbols (c : Container) (whole : List Byte) : Run ElfError (List StaticSymbol) := do
  match ← symtabBytes c whole with
  | none => pure []
  | some (symbols, strings) => staticSymbols strings (chunksExact SYMBOL_SIZE symbols)

/-! ## What never stops -/

theorem gives_readCstr (table : List Byte) (offset : Nat) : Gives (readCstr table offset) := by
  unfold readCstr
  split
  · exact gives_pure _
  · exact (gives_slice (Nat.zero_le _) List.findIdx_le_length).bind (fun name => gives_pure _)

theorem gives_stringAt (strings : List Byte) (offset : Nat) :
    Gives (stringAt strings offset) := by
  unfold stringAt
  split
  · exact gives_pure _
  · exact (gives_slice (Nat.zero_le _) List.findIdx_le_length).bind (fun name => gives_pure _)

theorem gives_entryField {entry : List Byte} {start stop : Nat} (h : start ≤ stop)
    (h' : stop ≤ entry.length) : Gives (entryField entry start stop) :=
  (gives_slice h h').bind (fun _ => gives_pure _)

section

variable {decode : String → Option EncodedImport} {hash : String → Nat}

theorem gives_importAt (strings : List Byte) (index : Nat) {entry : List Byte}
    (h : entry.length = SYMBOL_SIZE) : Gives (importAt decode hash strings index entry) := by
  unfold SYMBOL_SIZE at h
  apply (gives_entryField (by omega) (by omega)).bind
  intro nameOff
  apply (gives_entryField (by omega) (by omega)).bind
  intro info
  apply (gives_entryField (by omega) (by omega)).bind
  intro shndx
  split
  · exact gives_pure _
  · apply (gives_readCstr _ _).bind
    intro name
    cases name with
    | none => exact gives_pure _
    | some name =>
        dsimp only
        cases decode name <;> exact gives_pure _

theorem gives_exportAt (strings : List Byte) (index : Nat) {entry : List Byte}
    (h : entry.length = SYMBOL_SIZE) : Gives (exportAt decode hash strings index entry) := by
  unfold SYMBOL_SIZE at h
  apply (gives_entryField (by omega) (by omega)).bind
  intro nameOff
  apply (gives_entryField (by omega) (by omega)).bind
  intro info
  apply (gives_entryField (by omega) (by omega)).bind
  intro shndx
  split
  · exact gives_pure _
  · apply (gives_entryField (by omega) (by omega)).bind
    intro offset
    apply (gives_readCstr _ _).bind
    intro name
    cases name with
    | none => exact gives_pure _
    | some name =>
        dsimp only
        cases decode name <;> exact gives_pure _

end

theorem gives_namesAt (strings : List Byte) (offsets : List Nat) :
    Gives (namesAt strings offsets) := by
  induction offsets with
  | nil => exact gives_pure _
  | cons offset rest ih =>
      apply (gives_readCstr _ _).bind
      intro name
      exact ih.bind (fun names => gives_pure _)

theorem gives_namesById (strings : List Byte) (entries : List Nat) :
    Gives (namesById strings entries) := by
  induction entries with
  | nil => exact gives_pure _
  | cons entry rest ih =>
      apply (gives_readCstr _ _).bind
      intro name
      apply ih.bind
      intro names
      split <;> exact gives_pure _

theorem getRange_length {bytes part : List Byte} {start stop : Nat}
    (h : Container.getRange bytes start stop = some part) :
    start ≤ stop ∧ stop ≤ bytes.length ∧ part.length = stop - start := by
  unfold Container.getRange at h
  split at h
  · next hin =>
    cases h
    refine ⟨hin.1, hin.2, ?_⟩
    rw [List.length_take, List.length_drop]
    omega
  · cases h

/-! A module's own symbol table is read without a stop: an index into it is a two-byte count
or a four-byte link, times a two-byte size. -/

theorem calm_sectionHeader {table : List Byte} {entry index : Nat} (hentry : entry < 2 ^ 16)
    (hindex : index < 2 ^ 32) : Calm (sectionHeader table entry index) := by
  have hproduct : index * entry < 2 ^ 32 * 2 ^ 16 := Nat.mul_lt_mul'' hindex hentry
  have hbound : bound = 2 ^ 64 := rfl
  have hsize : sectionHeaderSize = 64 := rfl
  unfold sectionHeader checkedMul
  rw [if_pos (by omega)]
  dsimp only
  rw [add_ok (by omega)]
  show Calm (match Container.getRange table _ _ with | none => _ | some b => _)
  cases Container.getRange table (index * entry) (index * entry + sectionHeaderSize) <;>
    exact calm_ok _

theorem sectionHeader_link_lt {table : List Byte} {entry index : Nat}
    {header : Elf64SectionHeader} (h : sectionHeader table entry index = .ok (some header)) :
    header.link < 2 ^ 32 := by
  unfold sectionHeader at h
  cases hmul : checkedMul index entry with
  | none =>
      rw [hmul] at h
      cases h
  | some at' =>
      rw [hmul] at h
      by_cases hfit : at' + sectionHeaderSize < bound
      · simp only [add_ok hfit, bind, Except.bind] at h
        cases hrange : Container.getRange table at' (at' + sectionHeaderSize) with
        | none =>
            rw [hrange] at h
            cases h
        | some b =>
            rw [hrange] at h
            cases h
            exact field_lt b 40 4
      · simp only [add, hfit, if_false, bind, Except.bind] at h
        cases h

theorem calm_symtabFrom {whole table : List Byte} {entry : Nat} (hentry : entry < 2 ^ 16)
    (index left : Nat) (hindex : index + left < 2 ^ 32) :
    Calm (symtabFrom whole table entry index left) := by
  induction left generalizing index with
  | zero => exact calm_ok _
  | succ left ih =>
      refine (calm_bind_iff _ _).mpr ⟨calm_sectionHeader hentry (by omega), fun header h => ?_⟩
      cases header with
      | none => exact calm_ok _
      | some header =>
          dsimp only
          split
          · exact ih (index + 1) (by omega)
          · have hlink : header.link < 2 ^ 32 := sectionHeader_link_lt h
            refine (calm_bind_iff _ _).mpr ⟨calm_sectionHeader hentry hlink, fun strings _ => ?_⟩
            cases strings <;> exact calm_ok _

theorem gives_staticSymbol (strings entry : List Byte) : Gives (staticSymbol strings entry) := by
  unfold staticSymbol
  split
  · exact gives_pure _
  · apply (gives_stringAt _ _).bind
    intro name
    cases name with
    | none => exact gives_pure _
    | some name =>
        dsimp only
        split <;> exact gives_pure _

theorem gives_staticSymbols (strings : List Byte) (entries : List (List Byte)) :
    Gives (staticSymbols strings entries) := by
  induction entries with
  | nil => exact gives_pure _
  | cons entry rest ih =>
      apply (gives_staticSymbol strings entry).bind
      intro found
      exact ih.bind (fun symbols => gives_pure _)

theorem calm_functionSymbols (c : Container) (whole : List Byte) :
    Calm (functionSymbols c whole) := by
  have hentry : field c.bytes 58 2 < 2 ^ 16 := field_lt _ 58 2
  have hcount : field c.bytes 60 2 < 2 ^ 16 := field_lt _ 60 2
  have htables : Calm (symtabBytes c whole) := by
    unfold symtabBytes
    dsimp only
    split
    · exact calm_ok _
    · cases checkedMul (field c.bytes 60 2) (field c.bytes 58 2) with
      | none => exact calm_ok _
      | some size =>
          dsimp only
          cases Container.getChecked whole (field c.bytes 40 8) size with
          | none => exact calm_ok _
          | some table => exact calm_symtabFrom hentry 0 _ (by omega)
  refine (calm_bind_iff _ _).mpr ⟨htables, fun found _ => ?_⟩
  cases found with
  | none => exact calm_ok _
  | some pair => exact (gives_staticSymbols _ _).calm

/-! ## What can stop -/

section

variable {sceDynlibdata : Nat} {whole : List Byte} {c : Container}

theorem vendorDataOffset_exact (held : Held whole c) :
    vendorDataOffset sceDynlibdata c whole = lift (c.vendorDataOffset sceDynlibdata whole) := by
  unfold vendorDataOffset Container.vendorDataOffset
  rw [programHeaders_exact held, lift_bind]
  congr 1
  funext headers
  cases headers.zipIdx.find? (fun e => e.1.pType == sceDynlibdata) with
  | none => rfl
  | some found =>
      obtain ⟨ph, index⟩ := found
      dsimp only
      cases hw : c.wrapper with
      | none => rfl
      | some wrapper =>
          dsimp only
          rw [segments_exact held.short (held.table wrapper hw), lift_bind]
          congr 1
          funext segs
          cases segs.find? (fun s => s.hasData && s.programHeaderIndex == index) <;> rfl

theorem tableOffset_exact (held : Held whole c) (info : DynamicInfo) (value : Nat) :
    tableOffset sceDynlibdata c whole info value =
      lift (c.tableOffset sceDynlibdata whole info value) := by
  unfold tableOffset Container.tableOffset
  split
  · rw [vendorDataOffset_exact held, lift_bind]
    congr 1
    funext base
    cases base <;> rfl
  · exact vaddrToOffset_exact held value

theorem calm_stringTable_iff (strtabAt strsz : Nat) :
    Calm (stringTable whole strtabAt strsz) ↔ strtabAt + strsz < bound := by
  unfold stringTable
  rw [calm_bind_iff, calm_add_iff]
  constructor
  · intro h
    exact h.1
  · intro h
    exact ⟨h, fun stop _ => calm_ok _⟩

theorem calm_symbolCountAt_iff (hashAt : Nat) :
    Calm (symbolCountAt whole hashAt) ↔ hashAt + 8 < bound := by
  unfold symbolCountAt
  rw [calm_bind_iff, calm_add_iff]
  constructor
  · intro h
    have hstop := h.2 _ (add_ok h.1)
    rw [calm_bind_iff, calm_add_iff] at hstop
    exact hstop.1
  · intro h
    refine ⟨by omega, fun start _ => ?_⟩
    refine (calm_bind_iff _ _).mpr ⟨(calm_add_iff _ _).mpr h, fun stop _ => ?_⟩
    cases Container.getRange whole start stop with
    | none => exact calm_refuse _
    | some bytes => exact calm_ok _

/-- The hash table, where it is looked for and found, lies below the last eight bytes of the
address space. -/
def HashFits (sceDynlibdata : Nat) (c : Container) (whole : List Byte) (info : DynamicInfo) :
    Prop :=
  info.vendorTables ∨ info.hash ≠ 0 →
    ∀ at', c.tableOffset sceDynlibdata whole info info.hash = .ok (some at') → at' + 8 < bound

theorem calm_countSymbols_iff (held : Held whole c) (info : DynamicInfo) :
    Calm (countSymbols sceDynlibdata c whole info) ↔ HashFits sceDynlibdata c whole info := by
  have hgnu : Calm (if ¬ info.vendorTables ∧ info.gnuHash ≠ 0 then do
        match ← tableOffset sceDynlibdata c whole info info.gnuHash with
        | some at' => some <$> symbolCountFromGnuHash (whole.drop at')
        | none => pure none
      else pure none : Run ElfError (Option Nat)) := by
    split
    · rw [tableOffset_exact held]
      refine (calm_bind_iff _ _).mpr ⟨calm_lift _, fun at' _ => ?_⟩
      cases at' with
      | none => exact calm_ok _
      | some at' =>
          dsimp only
          rw [calm_map_iff, symbolCountFromGnuHash_exact]
          exact calm_lift _
    · exact calm_ok _
  unfold countSymbols HashFits
  by_cases hlooked : info.vendorTables ∨ info.hash ≠ 0
  · rw [if_pos hlooked, tableOffset_exact held]
    cases hat : c.tableOffset sceDynlibdata whole info info.hash with
    | error e => simp [hlooked]
    | ok found =>
        cases found with
        | none => simpa [hlooked] using hgnu
        | some at' => simp [hlooked, calm_map_iff, calm_symbolCountAt_iff]
  · rw [if_neg hlooked]
    simpa [hlooked] using hgnu

/-- The string table, where it is found, ends inside the address space. -/
def StringsFit (sceDynlibdata : Nat) (c : Container) (whole : List Byte) (info : SymbolInfo) :
    Prop :=
  ∀ at', c.tableOffset sceDynlibdata whole info.tables info.tables.strtab = .ok (some at') →
    at' + info.strsz < bound

theorem calm_named_iff {α : Type} {names : SymbolInfo → List Byte → Run ElfError (List α)}
    (held : Held whole c) (hnames : ∀ info strings, Calm (names info strings)) :
    Calm (named sceDynlibdata c whole names) ↔
      ∀ bytes, c.dynamicBytes whole = .ok (some bytes) →
        StringsFit sceDynlibdata c whole (SymbolInfo.parse bytes) := by
  unfold named StringsFit
  rw [dynamicBytes_exact held]
  cases hbytes : c.dynamicBytes whole with
  | error e => simp
  | ok found =>
      cases found with
      | none => simp
      | some bytes =>
          simp only [lift_ok, ok_bind, Except.ok.injEq, Option.some.injEq, forall_eq']
          rw [tableOffset_exact held]
          cases c.tableOffset sceDynlibdata whole (SymbolInfo.parse bytes).tables
            (SymbolInfo.parse bytes).tables.strtab with
          | error e => simp
          | ok strtab =>
              cases strtab with
              | none => simp
              | some strtabAt =>
                  simp [calm_bind_iff, calm_stringTable_iff, hnames]

theorem calm_symbolCount_iff (held : Held whole c) :
    Calm (symbolCount sceDynlibdata c whole) ↔
      ∀ bytes, c.dynamicBytes whole = .ok (some bytes) →
        HashFits sceDynlibdata c whole (SymbolInfo.parse bytes).tables := by
  unfold symbolCount
  rw [dynamicBytes_exact held]
  cases hbytes : c.dynamicBytes whole with
  | error e => simp
  | ok found =>
      cases found with
      | none => simp
      | some bytes => simp [calm_map_iff, calm_countSymbols_iff held]

/-! The walk over the symbols stops at the second one or nowhere: where the third is looked
at, the second was inside the bytes, so its size is small. -/

theorem calm_symbolWalk {α : Type} {one : Nat → List Byte → Run ElfError (Option α)}
    (hone : ∀ index entry, entry.length = SYMBOL_SIZE → Gives (one index entry))
    {symbols : List Byte} {stride : Nat} (hshort : symbols.length < longest)
    (hstride : stride + SYMBOL_SIZE < bound) (index left : Nat)
    (hread : index = 0 ∨ (index - 1) * stride + SYMBOL_SIZE ≤ symbols.length) :
    Calm (symbolWalk one symbols stride index left) := by
  have hbound : bound = 2 ^ 64 := rfl
  have hlongest : longest = 2 ^ 63 := rfl
  have hsize : SYMBOL_SIZE = 24 := rfl
  induction left generalizing index with
  | zero => exact calm_ok _
  | succ left ih =>
      have hfit : index * stride + SYMBOL_SIZE < bound := by
        rcases hread with rfl | hlast
        · simp [hbound, hsize]
        · cases index with
          | zero => omega
          | succ index =>
              rw [Nat.add_sub_cancel] at hlast
              rw [Nat.add_one_mul]
              cases index with
              | zero => omega
              | succ index =>
                  have hle : stride ≤ (index + 1) * stride := Nat.le_mul_of_pos_left _ (by omega)
                  omega
      have hat : min (index * stride) (bound - 1) = index * stride := min_eq_left (by omega)
      rw [symbolWalk, hat]
      refine (calm_bind_iff _ _).mpr ⟨(calm_add_iff _ _).mpr hfit, fun stop hstop => ?_⟩
      rw [add_ok hfit] at hstop
      cases hstop
      cases hentry : Container.getRange symbols (index * stride)
        (index * stride + SYMBOL_SIZE) with
      | none => exact calm_ok _
      | some entry =>
          obtain ⟨_, hinside, hlength⟩ := getRange_length hentry
          refine (calm_bind_iff _ _).mpr ⟨(hone index entry (by omega)).calm, fun found _ => ?_⟩
          have hrest := ih (index + 1) (Or.inr (by rwa [Nat.add_sub_cancel]))
          exact (calm_bind_iff _ _).mpr ⟨hrest, fun rest _ => calm_ok _⟩

theorem calm_symbolWalk_iff {α : Type} {one : Nat → List Byte → Run ElfError (Option α)}
    (hone : ∀ index entry, entry.length = SYMBOL_SIZE → Gives (one index entry))
    {symbols : List Byte} {stride count : Nat} (hshort : symbols.length < longest) :
    Calm (symbolWalk one symbols stride 0 count) ↔
      (2 ≤ count → SYMBOL_SIZE ≤ symbols.length → stride + SYMBOL_SIZE < bound) := by
  have hbound : bound = 2 ^ 64 := rfl
  have hsize : SYMBOL_SIZE = 24 := rfl
  constructor
  · intro h hcount hfirst
    obtain ⟨left, rfl⟩ := Nat.exists_eq_add_of_le' hcount
    have hadd : (add (min (0 * stride) (bound - 1)) SYMBOL_SIZE : Run ElfError Nat) =
        .ok SYMBOL_SIZE := by
      rw [Nat.zero_mul, Nat.zero_min, add_ok (by omega), Nat.zero_add]
    have hentry : ∃ entry, Container.getRange symbols (min (0 * stride) (bound - 1)) SYMBOL_SIZE =
        some entry := by
      rw [Nat.zero_mul, Nat.zero_min]
      exact ⟨_, if_pos ⟨Nat.zero_le _, hfirst⟩⟩
    obtain ⟨entry, hentry⟩ := hentry
    have hlength : entry.length = SYMBOL_SIZE := by
      have hparts := (getRange_length hentry).2.2
      simpa using hparts
    obtain ⟨found, hfound⟩ := hone 0 entry hlength
    rw [symbolWalk] at h
    simp only [hadd, hentry, hfound, ok_bind] at h
    have hsecond := ((calm_bind_iff _ _).mp h).1
    rw [symbolWalk] at hsecond
    have hstop := ((calm_bind_iff _ _).mp hsecond).1
    rw [calm_add_iff] at hstop
    omega
  · intro h
    by_cases hcount : 2 ≤ count
    · by_cases hfirst : SYMBOL_SIZE ≤ symbols.length
      · exact calm_symbolWalk hone hshort (h hcount hfirst) 0 count (Or.inl rfl)
      · -- The first symbol is not there, so nothing after it is looked at.
        obtain ⟨left, rfl⟩ := Nat.exists_eq_add_of_le' hcount
        have hadd : (add (min (0 * stride) (bound - 1)) SYMBOL_SIZE : Run ElfError Nat) =
            .ok SYMBOL_SIZE := by
          rw [Nat.zero_mul, Nat.zero_min, add_ok (by omega), Nat.zero_add]
        have hentry : Container.getRange symbols (min (0 * stride) (bound - 1)) SYMBOL_SIZE =
            none := if_neg (fun hin => hfirst hin.2)
        rw [symbolWalk]
        simp only [hadd, hentry, ok_bind]
        exact calm_pure _
    · -- One symbol at most: its position is zero.
      have hzero : Calm (symbolWalk one symbols 0 0 count) :=
        calm_symbolWalk hone hshort (by omega) 0 count (Or.inl rfl)
      rcases (by omega : count = 0 ∨ count = 1) with rfl | rfl
      · exact calm_ok _
      · simpa [symbolWalk] using hzero

theorem calm_fromSymbols_iff {α : Type} {one : Nat → List Byte → Run ElfError (Option α)}
    (hone : ∀ index entry, entry.length = SYMBOL_SIZE → Gives (one index entry))
    {symbols : List Byte} {count syment : Nat} (hshort : symbols.length < longest) :
    Calm (fromSymbols one symbols count syment) ↔
      (count ≤ MAX_SYMBOLS → 2 ≤ count → SYMBOL_SIZE ≤ symbols.length →
        strideOf syment + SYMBOL_SIZE < bound) := by
  unfold fromSymbols
  split
  · next hmany => simp [Nat.not_le.mpr hmany]
  · next hfew => simp [calm_symbolWalk_iff hone hshort, Nat.not_lt.mp hfew]

/-- The second symbol, where a walk comes to look for it, lies inside the address space. -/
def SymbolsFit (sceDynlibdata : Nat) (c : Container) (whole : List Byte) (info : SymbolInfo) :
    Prop :=
  info.tables.isUsable →
    ∀ stringsAt symbolsAt n,
      c.tableOffset sceDynlibdata whole info.tables info.tables.strtab = .ok (some stringsAt) →
      c.tableOffset sceDynlibdata whole info.tables info.tables.symtab = .ok (some symbolsAt) →
      countSymbols sceDynlibdata c whole info.tables = .ok (some n) →
      n ≤ MAX_SYMBOLS → 2 ≤ n → SYMBOL_SIZE ≤ (whole.drop symbolsAt).length →
        strideOf info.syment + SYMBOL_SIZE < bound

/-- A walk over located tables stops where the symbols' size is past the address space, and
nowhere else once the string and hash tables fit. -/
theorem calm_walk_iff {α : Type}
    {one : List Byte → Nat → List Byte → Run ElfError (Option α)}
    (hone : ∀ strings index entry, entry.length = SYMBOL_SIZE → Gives (one strings index entry))
    (held : Held whole c) {bytes : List Byte} (hbytes : c.dynamicBytes whole = .ok (some bytes))
    (hstrings : StringsFit sceDynlibdata c whole (SymbolInfo.parse bytes))
    (hhash : HashFits sceDynlibdata c whole (SymbolInfo.parse bytes).tables) :
    Calm (do
      let t ← symbolTables sceDynlibdata c whole
      fromSymbols (one t.strings) t.symbols t.count t.syment) ↔
      SymbolsFit sceDynlibdata c whole (SymbolInfo.parse bytes) := by
  have hcounted := (calm_countSymbols_iff held (SymbolInfo.parse bytes).tables).mpr hhash
  unfold symbolTables SymbolsFit
  rw [dynamicBytes_exact held, hbytes]
  simp only [lift_ok, ok_bind]
  by_cases husable : (SymbolInfo.parse bytes).tables.isUsable
  · simp only [husable, Bool.not_true, Bool.false_eq_true, if_false, true_implies]
    rw [tableOffset_exact held, tableOffset_exact held]
    cases hstrtab : c.tableOffset sceDynlibdata whole (SymbolInfo.parse bytes).tables
        (SymbolInfo.parse bytes).tables.strtab with
    | error e => simp
    | ok strtab =>
        cases strtab with
        | none => simp [located]
        | some strtabAt =>
            have hadd : (add strtabAt (SymbolInfo.parse bytes).strsz : Run ElfError Nat) =
                .ok _ := add_ok (hstrings strtabAt hstrtab)
            cases hsymtab : c.tableOffset sceDynlibdata whole (SymbolInfo.parse bytes).tables
                (SymbolInfo.parse bytes).tables.symtab with
            | error e => simp [located]
            | ok symtab =>
                cases symtab with
                | none => simp [located]
                | some symtabAt =>
                    have hshort : (whole.drop symtabAt).length < longest := by
                      rw [List.length_drop]
                      exact (Nat.sub_le _ _).trans_lt held.short
                    cases hcount : countSymbols sceDynlibdata c whole
                        (SymbolInfo.parse bytes).tables with
                    | error stop =>
                        cases stop with
                        | panicked => exact absurd hcount hcounted
                        | refused e =>
                            have hrefused : (.error (.refused e) : Run ElfError (Option Nat)) =
                                refuse e := rfl
                            simp [located, hrefused]
                    | ok counted =>
                        cases counted with
                        | none => simp [located]
                        | some n =>
                            simp [located, stringTable, hadd,
                              calm_fromSymbols_iff (hone _) hshort]
  · simp [husable]

theorem calm_walk_of_no_table {α : Type}
    {one : List Byte → Nat → List Byte → Run ElfError (Option α)} (held : Held whole c)
    (hbytes : ∀ bytes, c.dynamicBytes whole ≠ .ok (some bytes)) :
    Calm (do
      let t ← symbolTables sceDynlibdata c whole
      fromSymbols (one t.strings) t.symbols t.count t.syment) := by
  unfold symbolTables
  rw [dynamicBytes_exact held]
  cases hfound : c.dynamicBytes whole with
  | error e => simp
  | ok found =>
      cases found with
      | none => simp
      | some bytes => exact absurd hfound (hbytes bytes)

end

/-! ## Parsing any bytes -/

section

variable (decode : String → Option EncodedImport) (hash : String → Nat) (sceDynlibdata : Nat)

/-- Parsing the bytes, and whatever is then asked of the container, stops nowhere. -/
def NothingStops (whole : List Byte) : Prop :=
  Calm (parse whole) ∧
    ∀ c, parse whole = .ok c →
      Calm (programHeaders c) ∧ (∀ index, Calm (segmentData c whole index)) ∧
        (∀ vaddr, Calm (vaddrToOffset c whole vaddr)) ∧ Calm (dynamicBytes c whole) ∧
        Calm (symbolCount sceDynlibdata c whole) ∧
        Calm (rawImports decode hash sceDynlibdata c whole) ∧
        Calm (rawExports decode hash sceDynlibdata c whole) ∧
        Calm (importLibraries sceDynlibdata c whole) ∧
        Calm (neededLibraries sceDynlibdata c whole) ∧ Calm (functionSymbols c whole)

/-- What a located dynamic table says of its string table, hash table and symbols fits the
address space. -/
def TablesFit (whole : List Byte) : Prop :=
  ∀ c bytes, Container.parse whole = .ok c → c.dynamicBytes whole = .ok (some bytes) →
    StringsFit sceDynlibdata c whole (SymbolInfo.parse bytes) ∧
      HashFits sceDynlibdata c whole (SymbolInfo.parse bytes).tables ∧
        SymbolsFit sceDynlibdata c whole (SymbolInfo.parse bytes)

theorem parse_ok_iff (whole : List Byte) (c : Container) :
    parse whole = .ok c ↔ Container.parse whole = .ok c := by
  rw [parse_exact]
  cases Container.parse whole <;> simp

/-- Parsing stops for the tables a dynamic table misstates, and for nothing else: headers,
segments, addresses, the dynamic table itself and a module's own symbols never stop it. -/
theorem nothingStops_iff (whole : List Byte) (hshort : whole.length < longest) :
    NothingStops decode hash sceDynlibdata whole ↔ TablesFit sceDynlibdata whole := by
  unfold NothingStops TablesFit
  simp only [parse_ok_iff]
  constructor
  · intro h c bytes hc hbytes
    have held := held_of_parse hshort hc
    obtain ⟨_, _, _, _, hcount, himports, _, _, hneeded, _⟩ := h.2 c hc
    have hstrings := (calm_named_iff held (fun info strings =>
      (gives_namesAt strings info.needed).calm)).mp hneeded bytes hbytes
    have hhash := (calm_symbolCount_iff held).mp hcount bytes hbytes
    refine ⟨hstrings, hhash, ?_⟩
    exact (calm_walk_iff (fun strings index entry hentry => gives_importAt strings index hentry)
      held hbytes hstrings hhash).mp himports
  · intro h
    rw [parse_exact]
    refine ⟨calm_lift _, fun c hc => ?_⟩
    have held := held_of_parse hshort hc
    have hstrings : ∀ bytes, c.dynamicBytes whole = .ok (some bytes) →
        StringsFit sceDynlibdata c whole (SymbolInfo.parse bytes) :=
      fun bytes hbytes => (h c bytes hc hbytes).1
    rw [programHeaders_exact held, dynamicBytes_exact held]
    refine ⟨calm_lift _, fun index => ?_, fun vaddr => ?_, calm_lift _, ?_, ?_, ?_, ?_, ?_,
      calm_functionSymbols c whole⟩
    · rw [segmentData_exact held]
      exact calm_lift _
    · rw [vaddrToOffset_exact held]
      exact calm_lift _
    · exact (calm_symbolCount_iff held).mpr (fun bytes hbytes => (h c bytes hc hbytes).2.1)
    · by_cases hfound : ∃ bytes, c.dynamicBytes whole = .ok (some bytes)
      · obtain ⟨bytes, hbytes⟩ := hfound
        have hfits := h c bytes hc hbytes
        exact (calm_walk_iff (fun strings index entry hentry =>
          gives_importAt strings index hentry) held hbytes hfits.1 hfits.2.1).mpr hfits.2.2
      · exact calm_walk_of_no_table held (fun bytes hbytes => hfound ⟨bytes, hbytes⟩)
    · by_cases hfound : ∃ bytes, c.dynamicBytes whole = .ok (some bytes)
      · obtain ⟨bytes, hbytes⟩ := hfound
        have hfits := h c bytes hc hbytes
        exact (calm_walk_iff (fun strings index entry hentry =>
          gives_exportAt strings index hentry) held hbytes hfits.1 hfits.2.1).mpr hfits.2.2
      · exact calm_walk_of_no_table held (fun bytes hbytes => hfound ⟨bytes, hbytes⟩)
    · exact (calm_named_iff held (fun info strings =>
        (gives_namesById strings info.libraries).calm)).mpr hstrings
    · exact (calm_named_iff held (fun info strings =>
        (gives_namesAt strings info.needed).calm)).mpr hstrings

end

open Orbistoun.Lib.Codes (littleEndian)

def moduleOf (dynamic tables : List Byte) : List Byte :=
  ELF_MAGIC ++ [2, 1] ++ List.replicate 26 0 ++ littleEndian 8 64 ++ List.replicate 14 0 ++
    littleEndian 2 56 ++ littleEndian 2 2 ++ List.replicate 6 0 ++
    littleEndian 4 PT_DYNAMIC ++ littleEndian 4 4 ++ littleEndian 8 176 ++ littleEndian 8 176 ++
    littleEndian 8 0 ++ littleEndian 8 dynamic.length ++ littleEndian 8 dynamic.length ++
    littleEndian 8 0 ++
    littleEndian 4 BARE_PT_LOAD ++ littleEndian 4 4 ++ littleEndian 8 0 ++ littleEndian 8 0 ++
    littleEndian 8 0 ++ littleEndian 8 (176 + dynamic.length + tables.length) ++
    littleEndian 8 (176 + dynamic.length + tables.length) ++ littleEndian 8 0 ++ dynamic ++ tables

/-- One whose table places the strings at address 8 and states their size. -/
def smallModule (strsz : Nat) : List Byte :=
  moduleOf (littleEndian 8 Loader.Tag.STRTAB ++ littleEndian 8 8 ++ littleEndian 8 Tag.STRSZ ++
    littleEndian 8 strsz ++ littleEndian 8 0 ++ littleEndian 8 0) []

def smallContainer (strsz : Nat) : Container := ⟨smallModule strsz, ⟨0, 64, 56, 2⟩, none⟩

/-- A string table of the largest stated size: naming the needed libraries adds it to where
the table is. -/
theorem stated_size_stops :
    ¬ NothingStops (fun _ => none) (fun _ => 0) 0x61000000 (smallModule (2 ^ 64 - 1)) := by
  intro h
  have hparse : parse (smallModule (2 ^ 64 - 1)) = .ok (smallContainer (2 ^ 64 - 1)) := by
    decide +kernel
  have hstops : neededLibraries 0x61000000 (smallContainer (2 ^ 64 - 1))
      (smallModule (2 ^ 64 - 1)) = fault := by decide +kernel
  obtain ⟨_, _, _, _, _, _, _, _, hneeded, _⟩ := h.2 _ hparse
  exact hneeded hstops

/-- One with a hash table of two symbols at 272, the symbols behind it and their names at 344. -/
def linkedModule : List Byte :=
  moduleOf (littleEndian 8 Loader.Tag.STRTAB ++ littleEndian 8 344 ++
    littleEndian 8 Tag.STRSZ ++ littleEndian 8 3 ++
    littleEndian 8 Loader.Tag.SYMTAB ++ littleEndian 8 296 ++
    littleEndian 8 Tag.SYMENT ++ littleEndian 8 24 ++
    littleEndian 8 Loader.Tag.HASH ++ littleEndian 8 272 ++ littleEndian 8 0 ++ littleEndian 8 0)
    ([1, 2, 1, 0, 0, 0].flatMap (littleEndian 4) ++ List.replicate 24 0 ++
      littleEndian 4 1 ++ [0x12, 0, 1, 0] ++ littleEndian 8 176 ++ littleEndian 8 16 ++ [0, 0x66, 0])

def linkedContainer : Container := ⟨linkedModule, ⟨0, 64, 56, 2⟩, none⟩

theorem nothingStops_linked :
    symbolCount 0x61000000 linkedContainer linkedModule = .ok 2 ∧
      NothingStops (fun _ => none) (fun _ => 0) 0x61000000 linkedModule := by
  refine ⟨by decide +kernel, ?_⟩
  apply (nothingStops_iff (fun _ => none) (fun _ => 0) 0x61000000 linkedModule
    (by decide +kernel)).mpr
  intro c bytes hc hbytes
  have hparse : Container.parse linkedModule = .ok linkedContainer := by decide +kernel
  rw [hparse] at hc
  cases hc
  have hdynamic : linkedContainer.dynamicBytes linkedModule =
      .ok (some ((linkedModule.drop 176).take 96)) := by decide +kernel
  rw [hdynamic] at hbytes
  cases hbytes
  refine ⟨?_, ?_, ?_⟩
  · have hstrtab : linkedContainer.tableOffset 0x61000000 linkedModule
        (SymbolInfo.parse ((linkedModule.drop 176).take 96)).tables
        (SymbolInfo.parse ((linkedModule.drop 176).take 96)).tables.strtab = .ok (some 344) := by
      decide +kernel
    intro at' hat
    rw [hstrtab] at hat
    cases hat
    decide +kernel
  · have hhash : linkedContainer.tableOffset 0x61000000 linkedModule
        (SymbolInfo.parse ((linkedModule.drop 176).take 96)).tables
        (SymbolInfo.parse ((linkedModule.drop 176).take 96)).tables.hash = .ok (some 272) := by
      decide +kernel
    intro _ at' hat
    rw [hhash] at hat
    cases hat
    decide +kernel
  · intro _ _ _ _ _ _ _ _ _ _
    decide +kernel

end Orbistoun.Loader.Checked
