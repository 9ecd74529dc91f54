import Orbistoun.Loader.Dynamic
import Orbistoun.Loader.Placement

/-! # Relocations applied to a placed image

Each entry of the two tables a container declares is written to its slot, or counted by
why it could not be. A table is read where its address is found and the file holds all of
it; one that is not is passed over, and nothing counts the entries it holds.
-/

namespace Orbistoun.Loader

open Orbistoun.Lib.U64 (bound saturatingAdd checkedAdd)

/-! ## Entries -/

def RELA_SIZE : Nat := 24

namespace Kind

def ABS64 : Nat := 1
def GLOB_DAT : Nat := 6
def JUMP_SLOT : Nat := 7
def RELATIVE : Nat := 8
def DTPMOD64 : Nat := 16
def DTPOFF64 : Nat := 17
def TPOFF64 : Nat := 18

end Kind

/-- One relocation entry, its addend as the word its bits are. -/
structure Elf64Rela where
  offset : Nat
  info : Nat
  addend : Nat
  deriving DecidableEq, Repr

namespace Elf64Rela

def kind (e : Elf64Rela) : Nat := e.info % 2 ^ 32

def symbolIndex (e : Elf64Rela) : Nat := e.info / 2 ^ 32

def isTls (e : Elf64Rela) : Bool :=
  e.kind == Kind.DTPMOD64 || e.kind == Kind.DTPOFF64 || e.kind == Kind.TPOFF64

def readFromPrefix (bytes : List Byte) : Option Elf64Rela :=
  if bytes.length < RELA_SIZE then none else some ⟨field bytes 0 8, field bytes 8 8, field bytes 16 8⟩

end Elf64Rela

/-- A relocation table's entries; a trailing part of one is no entry. -/
def parseTable (bytes : List Byte) : List Elf64Rela :=
  (chunksExact RELA_SIZE bytes).filterMap Elf64Rela.readFromPrefix

/-- What became of the entries of a table, by number. -/
structure RelocationTally where
  applied : Nat
  weakZero : Nat
  tlsDeferred : Nat
  unsupported : Nat
  unresolved : Nat
  deriving DecidableEq, Repr

namespace RelocationTally

def default : RelocationTally := ⟨0, 0, 0, 0, 0⟩

def total (t : RelocationTally) : Nat :=
  t.applied + t.weakZero + t.tlsDeferred + t.unsupported + t.unresolved

end RelocationTally

/-! ## The value of an entry -/

/-- What a symbol index resolves to. -/
inductive Resolution where
  | address (s : Nat)
  | weakZero
  | unresolved
  deriving DecidableEq, Repr

/-- `resolve_symbol` of whatever answers for symbols. -/
abbrev SymbolResolver := Nat → Resolution

def MAIN_MODULE_ID : Nat := 1

/-- A module's thread-local block, as far as relocating reads it. -/
structure TlsLayout where
  blockSize : Nat
  module : Nat
  deriving DecidableEq, Repr

namespace TlsLayout

def isMain (l : TlsLayout) : Bool := l.module == MAIN_MODULE_ID

/-- A variable's offset from the thread pointer, as the word its bits are. -/
def tpOffset (l : TlsLayout) (moduleOffset : Nat) : Nat :=
  (moduleOffset + (bound - l.blockSize % bound)) % bound

end TlsLayout

def wrappingAdd (x y : Nat) : Nat := (x + y) % bound

inductive RelocValue where
  | address (a : Nat)
  | weakZero (a : Nat)
  deriving DecidableEq, Repr

def RelocValue.value : RelocValue → Nat
  | .address a => a
  | .weakZero a => a

/-- Why a relocation was not applied. -/
inductive RelocOutcome where
  | tlsDeferred
  | unsupported
  | unresolved
  deriving DecidableEq, Repr

/-- The thread-local cases: the module's own block only. -/
def tlsValueFor (entry : Elf64Rela) (addend : Nat) (tls : Option TlsLayout) :
    Except RelocOutcome Nat :=
  match tls with
  | none => .error .tlsDeferred
  | some layout =>
      if entry.symbolIndex ≠ 0 then .error .tlsDeferred
      else if entry.kind = Kind.DTPMOD64 then .ok layout.module
      else if entry.kind = Kind.DTPOFF64 then .ok addend
      else if entry.kind = Kind.TPOFF64 then
        if layout.isMain then .ok (layout.tpOffset addend) else .error .tlsDeferred
      else .error .unsupported

/-- The value one relocation writes, or why it has none. -/
def valueFor (entry : Elf64Rela) (base : Nat) (resolver : SymbolResolver) (tls : Option TlsLayout) :
    Except RelocOutcome RelocValue :=
  let addend := entry.addend
  if entry.kind = Kind.RELATIVE then .ok (.address (wrappingAdd base addend))
  else if entry.kind = Kind.ABS64 then
    match resolver entry.symbolIndex with
    | .address s => .ok (.address (wrappingAdd s addend))
    | .weakZero => .ok (.weakZero addend)
    | .unresolved => .error .unresolved
  else if entry.kind = Kind.GLOB_DAT ∨ entry.kind = Kind.JUMP_SLOT then
    match resolver entry.symbolIndex with
    | .address s => .ok (.address s)
    | .weakZero => .ok (.weakZero 0)
    | .unresolved => .error .unresolved
  else if entry.isTls then (tlsValueFor entry addend tls).map .address
  else .error .unsupported

/-! ## Applying the tables -/

/-- One eight-byte write. -/
structure SlotWrite where
  at_ : Nat
  value : Nat
  deriving DecidableEq, Repr

/-- The tally, and every write in the order it was made. -/
structure Applied where
  tally : RelocationTally
  writes : List SlotWrite
  deriving DecidableEq, Repr

namespace Applied

def default : Applied := ⟨.default, []⟩

/-- An entry passed over, counted. -/
def skip (a : Applied) : RelocOutcome → Applied
  | .tlsDeferred => { a with tally.tlsDeferred := a.tally.tlsDeferred + 1 }
  | .unsupported => { a with tally.unsupported := a.tally.unsupported + 1 }
  | .unresolved => { a with tally.unresolved := a.tally.unresolved + 1 }

/-- An entry written, counted. -/
def write (a : Applied) (target : Nat) (value : RelocValue) : Applied :=
  let tally : RelocationTally :=
    match value with
    | .address _ => { a.tally with applied := a.tally.applied + 1 }
    | .weakZero _ => { a.tally with weakZero := a.tally.weakZero + 1 }
  ⟨tally, a.writes ++ [⟨target, value.value⟩]⟩

end Applied

def outOfBounds (span : Nat × Nat) (target : Nat) : Bool :=
  decide (target < span.1) || decide (saturatingAdd span.1 span.2 < saturatingAdd target 8)

def applyTable (image : Image) (resolver : SymbolResolver) (tls : Option TlsLayout) :
    List Elf64Rela → Applied → Except LoadError Applied
  | [], a => .ok a
  | entry :: rest, a =>
      match valueFor entry image.base resolver tls with
      | .error outcome => applyTable image resolver tls rest (a.skip outcome)
      | .ok value =>
          let target := wrappingAdd image.base entry.offset
          if outOfBounds image.span target then
            .error (.relocationOutOfBounds target image.span.1 image.span.2)
          else applyTable image resolver tls rest (a.write target value)

section

variable (sceDynlibdata : Nat)

/-- The bytes of a declared table, where the loop over the tables goes on to apply them. -/
def tableBytes (c : Container) (whole : List Byte) (info : DynamicInfo) (addr size : Nat) :
    Except ElfError (Option (List Byte)) :=
  if addr = 0 ∨ size = 0 then .ok none
  else do
    match ← c.tableOffset sceDynlibdata whole info addr with
    | none => .ok none
    | some at_ => .ok (Container.getRange whole at_ (saturatingAdd at_ size))

/-- The loop over the declared tables, each an address and a size. -/
def applyTables (image : Image) (whole : List Byte) (resolver : SymbolResolver)
    (tls : Option TlsLayout) (c : Container) (info : DynamicInfo) :
    List (Nat × Nat) → Applied → Except LoadError Applied
  | [], a => .ok a
  | (addr, size) :: rest, a =>
      match tableBytes sceDynlibdata c whole info addr size with
      | .error e => .error (.elf e)
      | .ok none => applyTables image whole resolver tls c info rest a
      | .ok (some bytes) =>
          match applyTable image resolver tls (parseTable bytes) a with
          | .error e => .error e
          | .ok a => applyTables image whole resolver tls c info rest a

def DynamicInfo.relocationTables (info : DynamicInfo) : List (Nat × Nat) :=
  [(info.rela, info.relasz), (info.jmprel, info.pltrelsz)]

def applyRecorded (image : Image) (whole : List Byte) (resolver : SymbolResolver)
    (tls : Option TlsLayout) : Except LoadError Applied :=
  match Container.parse whole with
  | .error e => .error (.elf e)
  | .ok c =>
      match c.dynamicBytes whole with
      | .error e => .error (.elf e)
      | .ok none => .ok .default
      | .ok (some dynBytes) =>
          let info := DynamicInfo.parse dynBytes
          applyTables sceDynlibdata image whole resolver tls c info info.relocationTables .default

end

/-! ## What a table holds -/

theorem chunksExact_length (n : Nat) (bytes : List Byte) :
    (chunksExact n bytes).length = bytes.length / n := by
  simp [chunksExact]

theorem length_of_mem_chunksExact {n : Nat} {bytes chunk : List Byte}
    (h : chunk ∈ chunksExact n bytes) : chunk.length = n := by
  obtain ⟨i, hi, rfl⟩ := List.mem_map.mp h
  have hlast : (i + 1) * n ≤ bytes.length :=
    (Nat.mul_le_mul_right n (List.mem_range.mp hi)).trans (Nat.div_mul_le_self bytes.length n)
  rw [Nat.add_one_mul] at hlast
  rw [List.length_take, List.length_drop]
  omega

theorem parseTable_length (bytes : List Byte) :
    (parseTable bytes).length = bytes.length / RELA_SIZE := by
  rw [← chunksExact_length, parseTable]
  apply List.filterMap_length_eq_length.mpr
  intro chunk hchunk
  have hlen := length_of_mem_chunksExact hchunk
  simp [Elf64Rela.readFromPrefix, hlen]

/-! ## What applying a table does -/

section

variable (image : Image) (resolver : SymbolResolver) (tls : Option TlsLayout)

def slotWrite (entry : Elf64Rela) : Option SlotWrite :=
  match valueFor entry image.base resolver tls with
  | .ok value => some ⟨wrappingAdd image.base entry.offset, value.value⟩
  | .error _ => none

/-- An entry with a value whose slot lies outside the span. -/
def strays (entry : Elf64Rela) : Bool :=
  (slotWrite image resolver tls entry).any (fun w => outOfBounds image.span w.at_)

def record (a : Applied) (entry : Elf64Rela) : Applied :=
  match valueFor entry image.base resolver tls with
  | .error outcome => a.skip outcome
  | .ok value => a.write (wrappingAdd image.base entry.offset) value

theorem applyTable_of_strays {table : List Elf64Rela} {entry : Elf64Rela}
    (hmem : entry ∈ table) (hstrays : strays image resolver tls entry = true) (a : Applied) :
    ∃ e, applyTable image resolver tls table a = .error e := by
  induction table generalizing a with
  | nil => cases hmem
  | cons first rest ih =>
      rw [applyTable]
      rcases List.mem_cons.mp hmem with rfl | hrest
      · unfold strays slotWrite at hstrays
        cases hvalue : valueFor entry image.base resolver tls with
        | error outcome => simp [hvalue] at hstrays
        | ok value =>
            have hout : outOfBounds image.span (wrappingAdd image.base entry.offset) = true := by
              simpa [hvalue] using hstrays
            exact ⟨_, if_pos hout⟩
      · cases valueFor first image.base resolver tls with
        | error outcome => exact ih hrest _
        | ok value =>
            dsimp only
            split
            · exact ⟨_, rfl⟩
            · exact ih hrest _

theorem applyTable_ok {table : List Elf64Rela}
    (h : ∀ entry ∈ table, strays image resolver tls entry = false) (a : Applied) :
    applyTable image resolver tls table a = .ok (table.foldl (record image resolver tls) a) := by
  induction table generalizing a with
  | nil => rfl
  | cons first rest ih =>
      have hrest := ih (fun entry hmem => h entry (List.mem_cons_of_mem _ hmem))
      have hfirst := h first List.mem_cons_self
      rw [applyTable, List.foldl_cons, record]
      unfold strays slotWrite at hfirst
      cases hvalue : valueFor first image.base resolver tls with
      | error outcome => exact hrest _
      | ok value =>
          have hout : outOfBounds image.span (wrappingAdd image.base first.offset) = false := by
            simpa [hvalue] using hfirst
          simpa [hout] using hrest (a.write (wrappingAdd image.base first.offset) value)

/-- Every entry is counted once, by what became of it. -/
theorem record_total (a : Applied) (entry : Elf64Rela) :
    (record image resolver tls a entry).tally.total = a.tally.total + 1 := by
  unfold record
  cases valueFor entry image.base resolver tls with
  | error outcome =>
      cases outcome <;> simp only [Applied.skip, RelocationTally.total] <;> omega
  | ok value =>
      cases value <;> simp only [Applied.write, RelocationTally.total] <;> omega

theorem record_writes (a : Applied) (entry : Elf64Rela) :
    (record image resolver tls a entry).writes =
      a.writes ++ (slotWrite image resolver tls entry).toList := by
  unfold record slotWrite
  cases valueFor entry image.base resolver tls with
  | error outcome => cases outcome <;> simp [Applied.skip]
  | ok value => simp [Applied.write]

theorem record_counted {a : Applied} (entry : Elf64Rela)
    (h : a.tally.applied + a.tally.weakZero = a.writes.length) :
    (record image resolver tls a entry).tally.applied +
        (record image resolver tls a entry).tally.weakZero =
      (record image resolver tls a entry).writes.length := by
  unfold record
  cases valueFor entry image.base resolver tls with
  | error outcome => cases outcome <;> exact h
  | ok value =>
      cases value <;> simp only [Applied.write, List.length_append, List.length_singleton] <;> omega

theorem records_total (table : List Elf64Rela) (a : Applied) :
    (table.foldl (record image resolver tls) a).tally.total = a.tally.total + table.length := by
  induction table generalizing a with
  | nil => rfl
  | cons first rest ih =>
      rw [List.foldl_cons, ih, record_total, List.length_cons]
      omega

theorem records_writes (table : List Elf64Rela) (a : Applied) :
    (table.foldl (record image resolver tls) a).writes =
      a.writes ++ table.filterMap (slotWrite image resolver tls) := by
  induction table generalizing a with
  | nil => simp
  | cons first rest ih =>
      rw [List.foldl_cons, ih, record_writes, List.filterMap_cons, List.append_assoc]
      cases slotWrite image resolver tls first <;> rfl

theorem records_counted (table : List Elf64Rela) {a : Applied}
    (h : a.tally.applied + a.tally.weakZero = a.writes.length) :
    (table.foldl (record image resolver tls) a).tally.applied +
        (table.foldl (record image resolver tls) a).tally.weakZero =
      (table.foldl (record image resolver tls) a).writes.length := by
  induction table generalizing a with
  | nil => exact h
  | cons first rest ih => exact ih (record_counted image resolver tls first h)

end

/-! ## The declared tables -/

section

variable (sceDynlibdata : Nat) (c : Container) (whole : List Byte) (info : DynamicInfo)

def entriesRead (table : Nat × Nat) : List Elf64Rela :=
  match tableBytes sceDynlibdata c whole info table.1 table.2 with
  | .ok (some bytes) => parseTable bytes
  | _ => []

/-- A declared table holds no entry, or has an address that is found and lies in the file. -/
def Reads (table : Nat × Nat) : Prop :=
  table.2 / RELA_SIZE = 0 ∨
    ∃ at_, table.1 ≠ 0 ∧ c.tableOffset sceDynlibdata whole info table.1 = .ok (some at_) ∧
      at_ + table.2 ≤ whole.length

/-- A table cannot be looked for, or an entry read would write outside the span. -/
def Refuses (image : Image) (resolver : SymbolResolver) (tls : Option TlsLayout)
    (table : Nat × Nat) : Prop :=
  (∃ e, tableBytes sceDynlibdata c whole info table.1 table.2 = .error e) ∨
    ∃ entry ∈ entriesRead sceDynlibdata c whole info table, strays image resolver tls entry = true

variable {sceDynlibdata c whole info}

theorem entriesRead_cases (hfile : whole.length < bound - 1) (table : Nat × Nat) :
    (∃ at_, table.1 ≠ 0 ∧ c.tableOffset sceDynlibdata whole info table.1 = .ok (some at_) ∧
      at_ + table.2 ≤ whole.length ∧
      (entriesRead sceDynlibdata c whole info table).length = table.2 / RELA_SIZE) ∨
    (entriesRead sceDynlibdata c whole info table = [] ∧
      ∀ at_, table.1 ≠ 0 → c.tableOffset sceDynlibdata whole info table.1 = .ok (some at_) →
        at_ + table.2 ≤ whole.length → table.2 = 0) := by
  obtain ⟨addr, size⟩ := table
  by_cases hskip : addr = 0 ∨ size = 0
  · right
    refine ⟨by simp [entriesRead, tableBytes, hskip], ?_⟩
    intro at_ haddr hat hle
    exact hskip.resolve_left haddr
  · cases hoffset : c.tableOffset sceDynlibdata whole info addr with
    | error e =>
        right
        have hbytes : tableBytes sceDynlibdata c whole info addr size = .error e := by
          simp only [tableBytes, hskip, if_false, hoffset]
          rfl
        refine ⟨by simp [entriesRead, hbytes], ?_⟩
        intro at_ haddr hat
        cases hat
    | ok found =>
        have hbytes : tableBytes sceDynlibdata c whole info addr size =
            .ok (found.bind (fun at_ => Container.getRange whole at_ (saturatingAdd at_ size))) := by
          simp only [tableBytes, hskip, if_false, hoffset]
          cases found <;> rfl
        cases found with
        | none =>
            right
            refine ⟨by simp [entriesRead, hbytes], ?_⟩
            intro at_ haddr hat
            cases hat
        | some at_ =>
            by_cases hle : at_ + size ≤ whole.length
            · left
              refine ⟨at_, fun h => hskip (.inl h), rfl, hle, ?_⟩
              have hsat : saturatingAdd at_ size = at_ + size := by
                unfold saturatingAdd
                omega
              have hrange : Container.getRange whole at_ (at_ + size) =
                  some ((whole.drop at_).take size) := by
                simp [Container.getRange, hle]
              have hread : entriesRead sceDynlibdata c whole info (addr, size) =
                  parseTable ((whole.drop at_).take size) := by
                simp [entriesRead, hbytes, hsat, hrange]
              have hlen : ((whole.drop at_).take size).length = size := by
                rw [List.length_take, List.length_drop]
                omega
              rw [hread, parseTable_length, hlen]
            · right
              have hsat : ¬ saturatingAdd at_ size ≤ whole.length := by
                unfold saturatingAdd
                omega
              refine ⟨by simp [entriesRead, hbytes, Container.getRange, hsat], ?_⟩
              intro at_' haddr hat hle'
              cases hat
              exact absurd hle' hle

/-- The entries read are those the declared size holds, where the table is read. -/
theorem entriesRead_of_reads (hfile : whole.length < bound - 1) {addr size : Nat}
    (h : Reads sceDynlibdata c whole info (addr, size)) :
    (entriesRead sceDynlibdata c whole info (addr, size)).length = size / RELA_SIZE := by
  rcases entriesRead_cases hfile (addr, size) with ⟨at_, -, -, -, hlen⟩ | ⟨hnil, hsize⟩
  · exact hlen
  · rw [hnil]
    rcases h with hempty | ⟨at_, haddr, hat, hle⟩
    · exact hempty.symm
    · have hzero : size = 0 := hsize at_ haddr hat hle
      rw [hzero]
      rfl

/-- No entry is read of a table that is not, though it holds one. -/
theorem entriesRead_of_not_reads (hfile : whole.length < bound - 1) {addr size : Nat}
    (h : ¬ Reads sceDynlibdata c whole info (addr, size)) :
    (entriesRead sceDynlibdata c whole info (addr, size)).length < size / RELA_SIZE := by
  have hpos : 0 < size / RELA_SIZE := Nat.pos_of_ne_zero (fun hzero => h (.inl hzero))
  rcases entriesRead_cases hfile (addr, size) with ⟨at_, haddr, hat, hle, -⟩ | ⟨hnil, -⟩
  · exact absurd (.inr ⟨at_, haddr, hat, hle⟩) h
  · rw [hnil]
    exact hpos

theorem entriesRead_le (sceDynlibdata : Nat) (c : Container) (info : DynamicInfo)
    (hfile : whole.length < bound - 1) (addr size : Nat) :
    (entriesRead sceDynlibdata c whole info (addr, size)).length ≤ size / RELA_SIZE := by
  by_cases h : Reads sceDynlibdata c whole info (addr, size)
  · exact (entriesRead_of_reads hfile h).le
  · exact (entriesRead_of_not_reads hfile h).le

variable {image : Image} {resolver : SymbolResolver} {tls : Option TlsLayout}

theorem applyTables_refused {tables : List (Nat × Nat)} {table : Nat × Nat} (hmem : table ∈ tables)
    (hrefuses : Refuses sceDynlibdata c whole info image resolver tls table) (a : Applied) :
    ∃ e, applyTables sceDynlibdata image whole resolver tls c info tables a = .error e := by
  induction tables generalizing a with
  | nil => cases hmem
  | cons first rest ih =>
      rw [applyTables]
      cases hbytes : tableBytes sceDynlibdata c whole info first.1 first.2 with
      | error e => exact ⟨_, rfl⟩
      | ok found =>
          rcases List.mem_cons.mp hmem with rfl | hrest
          · rcases hrefuses with ⟨e, he⟩ | ⟨entry, hentry, hstrays⟩
            · rw [hbytes] at he
              cases he
            · cases found with
              | none => simp [entriesRead, hbytes] at hentry
              | some bytes =>
                  have hentry' : entry ∈ parseTable bytes := by
                    simpa [entriesRead, hbytes] using hentry
                  obtain ⟨e, he⟩ := applyTable_of_strays image resolver tls hentry' hstrays a
                  exact ⟨e, by simp [he]⟩
          · cases found with
            | none => exact ih hrest a
            | some bytes =>
                dsimp only
                cases applyTable image resolver tls (parseTable bytes) a with
                | error e => exact ⟨e, rfl⟩
                | ok a' => exact ih hrest a'

theorem applyTables_ok {tables : List (Nat × Nat)}
    (h : ∀ table ∈ tables, ¬ Refuses sceDynlibdata c whole info image resolver tls table)
    (a : Applied) :
    applyTables sceDynlibdata image whole resolver tls c info tables a =
      .ok ((tables.flatMap (entriesRead sceDynlibdata c whole info)).foldl
        (record image resolver tls) a) := by
  induction tables generalizing a with
  | nil => rfl
  | cons first rest ih =>
      have hrest := ih (fun table hmem => h table (List.mem_cons_of_mem _ hmem))
      have hfirst := h first List.mem_cons_self
      rw [List.flatMap_cons, List.foldl_append, applyTables]
      cases hbytes : tableBytes sceDynlibdata c whole info first.1 first.2 with
      | error e => exact absurd (.inl ⟨e, hbytes⟩) hfirst
      | ok found =>
          cases found with
          | none => simpa [entriesRead, hbytes] using hrest a
          | some bytes =>
              have hread : entriesRead sceDynlibdata c whole info first = parseTable bytes := by
                simp [entriesRead, hbytes]
              have hkeeps : ∀ entry ∈ parseTable bytes, strays image resolver tls entry = false := by
                intro entry hentry
                by_contra hstrays
                exact hfirst (.inr ⟨entry, hread ▸ hentry, Bool.eq_true_of_not_eq_false hstrays⟩)
              have happly := applyTable_ok image resolver tls hkeeps a
              simpa only [happly, hread] using hrest _

end

/-! ## Every relocation is accounted for -/

/-- Every entry the declared sizes hold is in the tally, and the writes are those of the
entries that have a value, in order and inside the span. -/
structure Accounted (sceDynlibdata : Nat) (image : Image) (whole : List Byte)
    (resolver : SymbolResolver) (tls : Option TlsLayout) (c : Container) (info : DynamicInfo)
    (a : Applied) : Prop where
  total : a.tally.total = info.relasz / RELA_SIZE + info.pltrelsz / RELA_SIZE
  writes : a.writes = (info.relocationTables.flatMap (entriesRead sceDynlibdata c whole info)).filterMap
    (slotWrite image resolver tls)
  counted : a.tally.applied + a.tally.weakZero = a.writes.length
  inside : ∀ w ∈ a.writes, image.span.1 ≤ w.at_ ∧ w.at_ + 8 ≤ image.span.1 + image.span.2

theorem inside_of_not_strays {image : Image} {resolver : SymbolResolver} {tls : Option TlsLayout}
    (hspan : image.span.1 + image.span.2 < bound - 1) {entry : Elf64Rela} {w : SlotWrite}
    (hw : slotWrite image resolver tls entry = some w)
    (h : strays image resolver tls entry = false) :
    image.span.1 ≤ w.at_ ∧ w.at_ + 8 ≤ image.span.1 + image.span.2 := by
  have hin : outOfBounds image.span w.at_ = false := by
    simpa [strays, hw] using h
  unfold outOfBounds at hin
  rw [Bool.or_eq_false_iff, decide_eq_false_iff_not, decide_eq_false_iff_not] at hin
  unfold saturatingAdd at hin
  omega

/-- Relocating a container accounts for every entry exactly when it fails, or each table
that holds one has an address that is found and lies in the file. The file is shorter than
the address space, and no image reaches its end. -/
theorem applyRecorded_accounted_iff {sceDynlibdata : Nat} {image : Image} {whole : List Byte}
    {resolver : SymbolResolver} {tls : Option TlsLayout} {c : Container} {dynBytes : List Byte}
    (hparse : Container.parse whole = .ok c) (hdyn : c.dynamicBytes whole = .ok (some dynBytes))
    (hfile : whole.length < bound - 1) (hspan : image.span.1 + image.span.2 < bound - 1) :
    (∀ a, applyRecorded sceDynlibdata image whole resolver tls = .ok a →
      Accounted sceDynlibdata image whole resolver tls c (.parse dynBytes) a) ↔
    (∃ table ∈ (DynamicInfo.parse dynBytes).relocationTables,
      Refuses sceDynlibdata c whole (.parse dynBytes) image resolver tls table) ∨
    ∀ table ∈ (DynamicInfo.parse dynBytes).relocationTables,
      Reads sceDynlibdata c whole (.parse dynBytes) table := by
  have happly : applyRecorded sceDynlibdata image whole resolver tls =
      applyTables sceDynlibdata image whole resolver tls c (.parse dynBytes)
        (DynamicInfo.parse dynBytes).relocationTables .default := by
    simp only [applyRecorded, hparse, hdyn]
  rw [happly]
  generalize hinfo : DynamicInfo.parse dynBytes = info
  by_cases hrefused : ∃ table ∈ info.relocationTables,
      Refuses sceDynlibdata c whole info image resolver tls table
  · obtain ⟨table, hmem, hrefuses⟩ := hrefused
    obtain ⟨e, he⟩ := applyTables_refused hmem hrefuses Applied.default
    refine ⟨fun _ => .inl ⟨table, hmem, hrefuses⟩, fun _ a ha => ?_⟩
    rw [he] at ha
    cases ha
  · have hnone : ∀ table ∈ info.relocationTables,
        ¬ Refuses sceDynlibdata c whole info image resolver tls table :=
      fun table hmem hrefuses => hrefused ⟨table, hmem, hrefuses⟩
    have hok := applyTables_ok hnone Applied.default
    have hlength : (info.relocationTables.flatMap (entriesRead sceDynlibdata c whole info)).length =
        (entriesRead sceDynlibdata c whole info (info.rela, info.relasz)).length +
          (entriesRead sceDynlibdata c whole info (info.jmprel, info.pltrelsz)).length := by
      simp [DynamicInfo.relocationTables]
    have htotal := records_total image resolver tls
      (info.relocationTables.flatMap (entriesRead sceDynlibdata c whole info)) Applied.default
    have hzero : Applied.default.tally.total = 0 := rfl
    rw [hlength, hzero, Nat.zero_add] at htotal
    constructor
    · -- Neither table is read short, so a full count means that both are read.
      intro h
      right
      have haccounted := (h _ hok).total
      rw [htotal] at haccounted
      have hrela := entriesRead_le sceDynlibdata c info hfile info.rela info.relasz
      have hjmprel := entriesRead_le sceDynlibdata c info hfile info.jmprel info.pltrelsz
      intro table hmem
      by_contra hnot
      simp only [DynamicInfo.relocationTables, List.mem_cons, List.not_mem_nil, or_false] at hmem
      rcases hmem with rfl | rfl
      · have hlt := entriesRead_of_not_reads hfile hnot
        omega
      · have hlt := entriesRead_of_not_reads hfile hnot
        omega
    · intro h a ha
      rcases h with hrefuses | hreads
      · exact absurd hrefuses hrefused
      · rw [hok] at ha
        cases ha
        have hwrites := records_writes image resolver tls
          (info.relocationTables.flatMap (entriesRead sceDynlibdata c whole info)) Applied.default
        refine ⟨?_, hwrites, records_counted image resolver tls _ rfl, ?_⟩
        · have hrela := hreads (info.rela, info.relasz) (by simp [DynamicInfo.relocationTables])
          have hjmprel := hreads (info.jmprel, info.pltrelsz)
            (by simp [DynamicInfo.relocationTables])
          rw [htotal, entriesRead_of_reads hfile hrela, entriesRead_of_reads hfile hjmprel]
        · intro w hw
          rw [hwrites] at hw
          obtain ⟨entry, hentry, hslot⟩ := List.mem_filterMap.mp hw
          obtain ⟨table, hmem, hin⟩ := List.mem_flatMap.mp hentry
          apply inside_of_not_strays hspan hslot
          by_contra hstrays
          exact hnone table hmem (.inr ⟨entry, hin, Bool.eq_true_of_not_eq_false hstrays⟩)

theorem place_span {env : Env} {whole : List Byte} {base : Nat} {p : Prepared} {image : Image}
    (h : (p.place env whole base).result = .ok image) : image.span = (p.spanBase, p.spanLen) := by
  unfold Prepared.place at h
  split at h
  · cases h
  · split at h
    · cases h
    · cases h
      rfl

theorem placeFor_span_lt {env : Env} {whole : List Byte} {base page : Nat} {host : Host}
    {image : Image} (hgrant : ∀ start len, env.grant start len = .ok () → start + len < bound)
    (h : (placeFor env whole base page host).result = .ok image) :
    image.span.1 + image.span.2 < bound - 1 := by
  unfold placeFor at h
  split at h
  · cases h
  · next p hp =>
    by_cases hreserved : p.Reserved env
    · have hword := hgrant _ _ hreserved.2
      obtain ⟨hpages, hlen, haligned, -⟩ := Mem.Space.AddressSpace.validate_ok hreserved.1
      have hpageSize : Orbistoun.Mem.Space.guestPageSize = 4096 := rfl
      have hbound : bound = 2 ^ 64 := rfl
      rw [hpageSize] at hpages haligned
      rw [place_span h]
      dsimp only
      omega
    · exact absurd h ((place_refused whole base hreserved).2 image)

/-- A bare image whose dynamic table, at 176, declares relocations at 224, where the file
ends with one of them. -/
def relocatable (relasz : Nat) : List Byte :=
  ELF_MAGIC ++ [2, 1] ++ List.replicate 18 0 ++ leBytes 8 0 ++ leBytes 8 64 ++ List.replicate 14 0 ++
    leBytes 2 56 ++ leBytes 2 2 ++ List.replicate 6 0 ++
    leBytes 4 PT_DYNAMIC ++ leBytes 4 4 ++ leBytes 8 176 ++ leBytes 8 176 ++ leBytes 8 0 ++
    leBytes 8 48 ++ leBytes 8 48 ++ leBytes 8 0 ++
    leBytes 4 PT_LOAD ++ leBytes 4 4 ++ leBytes 8 0 ++ leBytes 8 0 ++ leBytes 8 0 ++
    leBytes 8 248 ++ leBytes 8 248 ++ leBytes 8 0 ++
    leBytes 8 Tag.RELA ++ leBytes 8 224 ++ leBytes 8 Tag.RELASZ ++ leBytes 8 relasz ++
    List.replicate 16 0 ++
    leBytes 8 8 ++ leBytes 8 Kind.RELATIVE ++ leBytes 8 5

def onePage : Image := ⟨.new, 0x10000, 0x10000, (0x10000, 4096), [], (0x11000, 0), []⟩

/-- One entry declared and held. -/
theorem applyRecorded_accounted_one_entry :
    (applyRecorded 0 onePage (relocatable 24) (fun _ => .unresolved) none).isOk = true ∧
      ∀ a, applyRecorded 0 onePage (relocatable 24) (fun _ => .unresolved) none = .ok a →
        Accounted 0 onePage (relocatable 24) (fun _ => .unresolved) none
          ⟨relocatable 24, ⟨0, 64, 56, 2⟩, none⟩
          (.parse (((relocatable 24).drop 176).take 48)) a := by
  have htables : (DynamicInfo.parse (((relocatable 24).drop 176).take 48)).relocationTables =
      [(224, 24), (0, 0)] := by decide +kernel
  have hoffset : Container.tableOffset 0 ⟨relocatable 24, ⟨0, 64, 56, 2⟩, none⟩ (relocatable 24)
      (.parse (((relocatable 24).drop 176).take 48)) 224 = .ok (some 224) := by decide +kernel
  have hlen : 224 + 24 ≤ (relocatable 24).length := by decide +kernel
  apply And.intro (by decide +kernel)
  apply (applyRecorded_accounted_iff (by decide +kernel) (by decide +kernel) (by decide +kernel)
    (by decide)).mpr
  right
  intro table hmem
  rw [htables] at hmem
  rcases List.mem_cons.mp hmem with rfl | hmem
  · exact .inr ⟨224, by decide, hoffset, hlen⟩
  · rw [List.mem_singleton.mp hmem]
    exact .inl rfl

/-- Two entries declared where the file ends with one: neither is applied or counted. -/
theorem truncated_table_reads_as_relocated :
    ¬ ∀ (sceDynlibdata : Nat) (image : Image) (whole : List Byte) (resolver : SymbolResolver)
      (tls : Option TlsLayout) (c : Container) (dynBytes : List Byte),
      Container.parse whole = .ok c → c.dynamicBytes whole = .ok (some dynBytes) →
      ∀ a, applyRecorded sceDynlibdata image whole resolver tls = .ok a →
        Accounted sceDynlibdata image whole resolver tls c (.parse dynBytes) a := by
  intro h
  have hrun : applyRecorded 0 onePage (relocatable 48) (fun _ => .unresolved) none =
      .ok .default := by decide +kernel
  have haccounted := h 0 onePage (relocatable 48) (fun _ => .unresolved) none
    ⟨relocatable 48, ⟨0, 64, 56, 2⟩, none⟩ (((relocatable 48).drop 176).take 48)
    (by decide +kernel) (by decide +kernel) _ hrun
  have htotal := haccounted.total
  revert htotal
  decide +kernel

end Orbistoun.Loader
