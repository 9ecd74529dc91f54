import Orbistoun.Loader.Container

/-! # The dynamic table and what it names

A container's dynamic segment names its tables by tag. A standard tag holds a virtual
address; a vendor tag holds an offset into the vendor data segment, whose first byte is
offset zero. Where a table's bytes are is found through the program headers of a bare
image, and through the wrapper's descriptors where there is one.
-/

namespace Orbistoun.Loader

open Orbistoun.Lib.U64 (bound saturatingAdd checkedAdd)

/-- The whole chunks of `n` bytes that bytes are made of: `chunks_exact`. -/
def chunksExact (n : Nat) (bytes : List Byte) : List (List Byte) :=
  (List.range (bytes.length / n)).map (fun i => (bytes.drop (i * n)).take n)

/-! ## The table -/

namespace Tag

def HASH : Nat := 4
def GNU_HASH : Nat := 0x6ffffef5
def STRTAB : Nat := 5
def SYMTAB : Nat := 6
def RELA : Nat := 7
def RELASZ : Nat := 8
def JMPREL : Nat := 23
def PLTRELSZ : Nat := 2
def SCE_HASH : Nat := 0x61000025
def SCE_STRTAB : Nat := 0x61000035
def SCE_SYMTAB : Nat := 0x61000039
def SCE_RELA : Nat := 0x6100002F
def SCE_RELASZ : Nat := 0x61000031
def SCE_JMPREL : Nat := 0x61000029
def SCE_PLTRELSZ : Nat := 0x6100002D

end Tag

def DYNAMIC_ENTRY_SIZE : Nat := 16

/-- The dynamic table's contents, as far as relocating needs them. -/
structure DynamicInfo where
  strtab : Nat
  symtab : Nat
  hash : Nat
  gnuHash : Nat
  rela : Nat
  relasz : Nat
  jmprel : Nat
  pltrelsz : Nat
  vendorTables : Bool
  deriving DecidableEq, Repr

namespace DynamicInfo

def default : DynamicInfo := ⟨0, 0, 0, 0, 0, 0, 0, 0, false⟩

/-- What `parse` collects: the standard tables, the vendor's, and those of the vendor's
that zero does not stand for the lack of. -/
structure Collected where
  info : DynamicInfo
  vendor : DynamicInfo
  vStrtab : Option Nat
  vSymtab : Option Nat
  vHash : Option Nat
  deriving DecidableEq, Repr

/-- One entry of the table, by its tag. -/
def collect (c : Collected) (tag value : Nat) : Collected :=
  if tag = Tag.STRTAB then { c with info.strtab := value }
  else if tag = Tag.SYMTAB then { c with info.symtab := value }
  else if tag = Tag.HASH then { c with info.hash := value }
  else if tag = Tag.GNU_HASH then { c with info.gnuHash := value }
  else if tag = Tag.RELA then { c with info.rela := value }
  else if tag = Tag.RELASZ then { c with info.relasz := value }
  else if tag = Tag.JMPREL then { c with info.jmprel := value }
  else if tag = Tag.PLTRELSZ then { c with info.pltrelsz := value }
  else if tag = Tag.SCE_HASH then { c with vHash := some value }
  else if tag = Tag.SCE_STRTAB then { c with vStrtab := some value }
  else if tag = Tag.SCE_SYMTAB then { c with vSymtab := some value }
  else if tag = Tag.SCE_RELA then { c with vendor.rela := value }
  else if tag = Tag.SCE_RELASZ then { c with vendor.relasz := value }
  else if tag = Tag.SCE_JMPREL then { c with vendor.jmprel := value }
  else if tag = Tag.SCE_PLTRELSZ then { c with vendor.pltrelsz := value }
  else c

/-- The loop over the table's entries, up to `DT_NULL`. -/
def collectAll : Collected → List (List Byte) → Collected
  | c, [] => c
  | c, chunk :: rest =>
      if field chunk 0 8 = 0 then c
      else collectAll (collect c (field chunk 0 8) (field chunk 8 8)) rest

/-- The vendor's tables win, when all three that a symbol walk needs are named. -/
def parse (bytes : List Byte) : DynamicInfo :=
  let c := collectAll ⟨default, default, none, none, none⟩ (chunksExact DYNAMIC_ENTRY_SIZE bytes)
  match c.vStrtab, c.vSymtab, c.vHash with
  | some strtab, some symtab, some hash =>
      { c.info with
        strtab := strtab
        symtab := symtab
        hash := hash
        rela := c.vendor.rela
        relasz := c.vendor.relasz
        jmprel := c.vendor.jmprel
        pltrelsz := c.vendor.pltrelsz
        vendorTables := true }
  | _, _, _ => c.info

/-- Whether everything needed to walk the symbol table is present. -/
def isUsable (info : DynamicInfo) : Bool :=
  info.vendorTables || (info.strtab != 0 && info.symtab != 0 && (info.hash != 0 || info.gnuHash != 0))

end DynamicInfo

/-! ## Where its tables are -/

def PT_DYNAMIC : Nat := 2

/-- `PT_LOAD`, which wins when two headers of a bare image claim one address. -/
def BARE_PT_LOAD : Nat := 1

def Elf64ProgramHeader.covers (ph : Elf64ProgramHeader) (vaddr : Nat) : Bool :=
  ph.filesz != 0 && decide (ph.vaddr ≤ vaddr) && decide (vaddr < saturatingAdd ph.vaddr ph.filesz)

def Elf64ProgramHeader.coversOffset (ph : Elf64ProgramHeader) (at_ : Nat) : Bool :=
  ph.filesz != 0 && decide (ph.offset ≤ at_) && decide (at_ < saturatingAdd ph.offset ph.filesz)

namespace Container

def coveringOffset (whole : List Byte) (vaddr : Nat) (ph : Elf64ProgramHeader) : Option Nat :=
  if !ph.covers vaddr then none
  else
    match checkedAdd ph.offset (vaddr - ph.vaddr) with
    | none => none
    | some at_ => if at_ < whole.length then some at_ else none

def bareVaddrToOffset (c : Container) (whole : List Byte) (vaddr : Nat) :
    Except ElfError (Option Nat) := do
  let headers ← c.programHeaders
  .ok (((headers.filter (fun ph => ph.pType == BARE_PT_LOAD)).findSome?
      (coveringOffset whole vaddr)).or
    (headers.findSome? (coveringOffset whole vaddr)))

/-- The walk outwards to a covering header whose bytes a descriptor locates. -/
def outward (wrapper : Wrapper) (whole : List Byte) (vaddr : Nat) :
    List (Elf64ProgramHeader × Nat) → Except ElfError (Option Nat)
  | [] => .ok none
  | (outer, index) :: rest =>
      if !outer.covers vaddr then outward wrapper whole vaddr rest
      else do
        match ← wrapper.dataForProgramHeader whole index with
        | none => outward wrapper whole vaddr rest
        | some data =>
            let within := vaddr - outer.vaddr
            if within < data.length then
              let segments ← wrapper.segments whole
              match segments.find? (fun s => s.hasData && s.programHeaderIndex == index) with
              | some s => .ok (some (s.range.1 + within))
              | none => outward wrapper whole vaddr rest
            else outward wrapper whole vaddr rest

/-- The loop over the headers that cover an address, each of them the walk outwards. -/
def covered (wrapper : Wrapper) (whole : List Byte) (vaddr : Nat)
    (all : List Elf64ProgramHeader) : List Elf64ProgramHeader → Except ElfError (Option Nat)
  | [] => .ok none
  | ph :: rest =>
      if !ph.covers vaddr then covered wrapper whole vaddr all rest
      else do
        match ← outward wrapper whole vaddr all.zipIdx with
        | some at_ => .ok (some at_)
        | none => covered wrapper whole vaddr all rest

/-- A guest virtual address as a position in the whole container. -/
def vaddrToOffset (c : Container) (whole : List Byte) (vaddr : Nat) :
    Except ElfError (Option Nat) :=
  match c.wrapper with
  | none => c.bareVaddrToOffset whole vaddr
  | some wrapper => do
      let headers ← c.programHeaders
      covered wrapper whole vaddr headers headers

section

-- The program header type of the vendor data segment, a number of the platform's.
variable (sceDynlibdata : Nat)

def vendorDataOffset (c : Container) (whole : List Byte) : Except ElfError (Option Nat) := do
  let headers ← c.programHeaders
  match headers.zipIdx.find? (fun e => e.1.pType == sceDynlibdata) with
  | none => .ok none
  | some (ph, index) =>
      match c.wrapper with
      | none => .ok (if ph.offset ≤ whole.length then some ph.offset else none)
      | some wrapper =>
          let segments ← wrapper.segments whole
          match segments.find? (fun s => s.hasData && s.programHeaderIndex == index) with
          | none => .ok none
          | some s => .ok (if s.range.1 ≤ whole.length then some s.range.1 else none)

def tableOffset (c : Container) (whole : List Byte) (info : DynamicInfo) (value : Nat) :
    Except ElfError (Option Nat) :=
  if info.vendorTables then do
    match ← c.vendorDataOffset sceDynlibdata whole with
    | none => .ok none
    | some base => .ok (checkedAdd base value)
  else c.vaddrToOffset whole value

end

/-- The bytes from a position on, where there are that many: `at.checked_add(size)`, then
`whole.get`. -/
def getChecked (whole : List Byte) (at_ size : Nat) : Option (List Byte) :=
  match checkedAdd at_ size with
  | none => none
  | some stop => getRange whole at_ stop

/-- The loop of `dynamic_bytes_by_offset`. -/
def bytesByOffset (wrapper : Wrapper) (whole : List Byte) (dynOffset size : Nat) :
    List (Elf64ProgramHeader × Nat) → Except ElfError (Option (List Byte))
  | [] => .ok none
  | (outer, index) :: rest =>
      if !outer.coversOffset dynOffset then bytesByOffset wrapper whole dynOffset size rest
      else do
        let segments ← wrapper.segments whole
        match segments.find? (fun s => s.hasData && s.programHeaderIndex == index) with
        | some s => .ok (getChecked whole (saturatingAdd s.range.1 (dynOffset - outer.offset)) size)
        | none => bytesByOffset wrapper whole dynOffset size rest

/-- The dynamic table located by file offset within the segment that holds it. -/
def dynamicBytesByOffset (c : Container) (whole : List Byte) (dynOffset size : Nat) :
    Except ElfError (Option (List Byte)) :=
  match c.wrapper with
  | none => .ok none
  | some wrapper => do
      let headers ← c.programHeaders
      bytesByOffset wrapper whole dynOffset size headers.zipIdx

/-- The dynamic table's bytes: by address, and by file offset where a wrapped container's
addressed bytes are no usable table. -/
def dynamicBytes (c : Container) (whole : List Byte) : Except ElfError (Option (List Byte)) := do
  let headers ← c.programHeaders
  match headers.find? (fun ph => ph.pType == PT_DYNAMIC) with
  | none => .ok none
  | some ph =>
      let at_ ← if c.wrapper.isSome then c.vaddrToOffset whole ph.vaddr else .ok (some ph.offset)
      let byVaddr := at_.bind (fun at_ => getChecked whole at_ ph.filesz)
      let usable (bytes : List Byte) : Bool := (DynamicInfo.parse bytes).isUsable
      if c.wrapper.isSome && !byVaddr.any usable then
        match ← c.dynamicBytesByOffset whole ph.offset ph.filesz with
        | some bytes => if usable bytes then .ok (some bytes) else .ok byVaddr
        | none => .ok byVaddr
      else .ok byVaddr

end Container

end Orbistoun.Loader
