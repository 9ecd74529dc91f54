import Orbistoun.Lib.Trap
import Orbistoun.Loader.Dynamic

/-! # Container parsing with its arithmetic checked

The same parsing with every plain sum, product, difference and slice a step that can stop
the run, as a build with overflow checks does it. Up to the dynamic table nothing ever stops:
each function is the plain one, lifted, because what a header claims is compared with the
bytes there are before it is used.
-/

namespace Orbistoun.Loader.Checked

open Orbistoun.Lib.U64 (bound saturatingAdd checkedAdd)
open Orbistoun.Lib.Trap

/-! ## The container -/

def parseWrapper (bytes : List Byte) : Run ElfError Wrapper :=
  if !Wrapper.isEitherGeneration bytes then refuse .notWrapped
  else if bytes.length < HEADER_SIZE then refuse (.truncated 0 HEADER_SIZE bytes.length)
  else
    let count := field bytes 24 2
    if MAX_SEGMENTS < count then refuse (.absurdSegmentCount count MAX_SEGMENTS)
    else do
      let table ← mul count SEGMENT_SIZE
      let elfOffset ← add HEADER_SIZE table
      let stop ← add elfOffset 4
      if bytes.length < stop then refuse (.truncated elfOffset 4 bytes.length)
      else do
        let magic ← slice bytes elfOffset stop
        if magic != ELF_MAGIC then refuse (.innerElfNotFound elfOffset count)
        else pure ⟨count, elfOffset⟩

def segment (bytes : List Byte) (i : Nat) : Run ElfError WrapperSegment := do
  let skipped ← mul i SEGMENT_SIZE
  let at' ← add HEADER_SIZE skipped
  let tail ← sliceFrom bytes at'
  match WrapperSegment.readFromPrefix tail with
  | none => refuse (.truncated at' SEGMENT_SIZE (bytes.length - at'))
  | some s => pure s

def segments (w : Wrapper) (bytes : List Byte) : Run ElfError (List WrapperSegment) :=
  (List.range w.segmentCount).mapM (segment bytes)

def dataForProgramHeader (w : Wrapper) (bytes : List Byte) (index : Nat) :
    Run ElfError (Option (List Byte)) := do
  let segments ← segments w bytes
  match segments.find? (fun s => s.hasData && s.programHeaderIndex == index) with
  | none => pure none
  | some s =>
      if bytes.length < s.range.2 then
        refuse (.truncated s.range.1 (s.range.2 - s.range.1)
          (bytes.length - min s.range.1 bytes.length))
      else do
        let data ← slice bytes s.range.1 s.range.2
        pure (some data)

def parse (bytes : List Byte) : Run ElfError Container :=
  if Wrapper.isEitherGeneration bytes then do
    let wrapper ← parseWrapper bytes
    let inner ← sliceFrom bytes wrapper.elfOffset
    let container ← lift (Container.parsePlain inner)
    pure { container with wrapper := some wrapper }
  else lift (Container.parsePlain bytes)

def programHeader (c : Container) (i : Nat) : Run ElfError Elf64ProgramHeader := do
  let skipped ← mul i c.header.phentsize
  let at' ← add c.header.phoff skipped
  let tail ← sliceFrom c.bytes at'
  match Elf64ProgramHeader.readFromPrefix tail with
  | none => do
      let left ← sub c.bytes.length at'
      refuse (.truncated at' programHeaderSize left)
  | some ph => pure ph

def programHeaders (c : Container) : Run ElfError (List Elf64ProgramHeader) :=
  -- `saturating_mul` of two `u16`s
  let need := c.header.phnum * c.header.phentsize
  let offset := c.header.phoff
  if c.bytes.length < saturatingAdd offset need then
    refuse (.truncated offset need (c.bytes.length - min offset c.bytes.length))
  else (List.range c.header.phnum).mapM (programHeader c)

def segmentData (c : Container) (whole : List Byte) (index : Nat) :
    Run ElfError (Option (List Byte)) :=
  match c.wrapper with
  | some wrapper => dataForProgramHeader wrapper whole index
  | none => do
      let headers ← programHeaders c
      match headers[index]? with
      | none => pure none
      | some ph => pure (Container.getRange whole ph.offset (saturatingAdd ph.offset ph.filesz))

/-! ## Where its tables are -/

def coveringOffset (whole : List Byte) (vaddr : Nat) (ph : Elf64ProgramHeader) :
    Run ElfError (Option Nat) :=
  if !ph.covers vaddr then pure none
  else do
    let within ← sub vaddr ph.vaddr
    match checkedAdd ph.offset within with
    | none => pure none
    | some at' => pure (if at' < whole.length then some at' else none)

/-- `find_map` over the headers. -/
def firstCovering (whole : List Byte) (vaddr : Nat) :
    List Elf64ProgramHeader → Run ElfError (Option Nat)
  | [] => pure none
  | ph :: rest => do
      match ← coveringOffset whole vaddr ph with
      | some at' => pure (some at')
      | none => firstCovering whole vaddr rest

def bareVaddrToOffset (c : Container) (whole : List Byte) (vaddr : Nat) :
    Run ElfError (Option Nat) := do
  let headers ← programHeaders c
  match ← firstCovering whole vaddr (headers.filter (fun ph => ph.pType == BARE_PT_LOAD)) with
  | some at' => pure (some at')
  | none => firstCovering whole vaddr headers

def outward (wrapper : Wrapper) (whole : List Byte) (vaddr : Nat) :
    List (Elf64ProgramHeader × Nat) → Run ElfError (Option Nat)
  | [] => pure none
  | (outer, index) :: rest =>
      if !outer.covers vaddr then outward wrapper whole vaddr rest
      else do
        match ← dataForProgramHeader wrapper whole index with
        | none => outward wrapper whole vaddr rest
        | some data => do
            let within ← sub vaddr outer.vaddr
            if within < data.length then do
              let _ ← sub whole.length data.length
              let segments ← segments wrapper whole
              match segments.find? (fun s => s.hasData && s.programHeaderIndex == index) with
              | some s => do
                  let at' ← add s.range.1 within
                  pure (some at')
              | none => outward wrapper whole vaddr rest
            else outward wrapper whole vaddr rest

def covered (wrapper : Wrapper) (whole : List Byte) (vaddr : Nat)
    (all : List Elf64ProgramHeader) : List Elf64ProgramHeader → Run ElfError (Option Nat)
  | [] => pure none
  | ph :: rest =>
      if !ph.covers vaddr then covered wrapper whole vaddr all rest
      else do
        match ← outward wrapper whole vaddr all.zipIdx with
        | some at' => pure (some at')
        | none => covered wrapper whole vaddr all rest

def vaddrToOffset (c : Container) (whole : List Byte) (vaddr : Nat) :
    Run ElfError (Option Nat) :=
  match c.wrapper with
  | none => bareVaddrToOffset c whole vaddr
  | some wrapper => do
      let headers ← programHeaders c
      covered wrapper whole vaddr headers headers

def bytesByOffset (wrapper : Wrapper) (whole : List Byte) (dynOffset size : Nat) :
    List (Elf64ProgramHeader × Nat) → Run ElfError (Option (List Byte))
  | [] => pure none
  | (outer, index) :: rest =>
      if !outer.coversOffset dynOffset then bytesByOffset wrapper whole dynOffset size rest
      else do
        let segments ← segments wrapper whole
        match segments.find? (fun s => s.hasData && s.programHeaderIndex == index) with
        | some s => do
            let within ← sub dynOffset outer.offset
            pure (Container.getChecked whole (saturatingAdd s.range.1 within) size)
        | none => bytesByOffset wrapper whole dynOffset size rest

def dynamicBytesByOffset (c : Container) (whole : List Byte) (dynOffset size : Nat) :
    Run ElfError (Option (List Byte)) :=
  match c.wrapper with
  | none => pure none
  | some wrapper => do
      let headers ← programHeaders c
      bytesByOffset wrapper whole dynOffset size headers.zipIdx

def dynamicBytes (c : Container) (whole : List Byte) : Run ElfError (Option (List Byte)) := do
  let headers ← programHeaders c
  match headers.find? (fun ph => ph.pType == PT_DYNAMIC) with
  | none => pure none
  | some ph => do
      let at' ← if c.wrapper.isSome then vaddrToOffset c whole ph.vaddr else pure (some ph.offset)
      let byVaddr := at'.bind (fun at' => Container.getChecked whole at' ph.filesz)
      let usable (bytes : List Byte) : Bool := (DynamicInfo.parse bytes).isUsable
      if c.wrapper.isSome && !byVaddr.any usable then do
        match ← dynamicBytesByOffset c whole ph.offset ph.filesz with
        | some bytes => if usable bytes then pure (some bytes) else pure byVaddr
        | none => pure byVaddr
      else pure byVaddr

/-! ## Nothing stops

What the bytes themselves promise: a byte string is shorter than half the words, and a
parsed container's counts are those of its two-byte fields.
-/

/-- A slice is no longer than `isize::MAX`. -/
def longest : Nat := 2 ^ 63

/-- What parsing leaves of a container's numbers. -/
structure Held (whole : List Byte) (c : Container) : Prop where
  short : whole.length < longest
  inner : c.bytes.length ≤ whole.length
  phnum : c.header.phnum < 2 ^ 16
  phentsize : c.header.phentsize < 2 ^ 16
  table : ∀ w, c.wrapper = some w → HEADER_SIZE + w.segmentCount * SEGMENT_SIZE ≤ whole.length

theorem leValue_lt (bytes : List Byte) : leValue bytes < 256 ^ bytes.length := by
  induction bytes with
  | nil => decide
  | cons b rest ih =>
      have hb : b.toNat < 256 := b.toNat_lt
      rw [leValue, List.length_cons, Nat.pow_succ']
      omega

theorem field_lt (bytes : List Byte) (offset width : Nat) :
    field bytes offset width < 256 ^ width := by
  have hlength : ((bytes.drop offset).take width).length ≤ width := by
    rw [List.length_take]
    exact Nat.min_le_left _ _
  exact (leValue_lt _).trans_le (Nat.pow_le_pow_right (by decide) hlength)

theorem parseWrapper_exact (bytes : List Byte) :
    parseWrapper bytes = lift (Wrapper.parse bytes) := by
  unfold parseWrapper Wrapper.parse
  split
  · rfl
  · split
    · rfl
    · dsimp only
      split
      · rfl
      · next hcount =>
        have hmax : field bytes 24 2 ≤ 4096 := by
          simpa [MAX_SEGMENTS] using hcount
        have hmul : (mul (field bytes 24 2) SEGMENT_SIZE : Run ElfError Nat) =
            .ok (field bytes 24 2 * SEGMENT_SIZE) := mul_ok (by unfold bound SEGMENT_SIZE; omega)
        have hadd : (add HEADER_SIZE (field bytes 24 2 * SEGMENT_SIZE) : Run ElfError Nat) =
            .ok (HEADER_SIZE + field bytes 24 2 * SEGMENT_SIZE) :=
          add_ok (by unfold bound SEGMENT_SIZE HEADER_SIZE; omega)
        have hstop : (add (HEADER_SIZE + field bytes 24 2 * SEGMENT_SIZE) 4 : Run ElfError Nat) =
            .ok (HEADER_SIZE + field bytes 24 2 * SEGMENT_SIZE + 4) :=
          add_ok (by unfold bound SEGMENT_SIZE HEADER_SIZE; omega)
        simp only [hmul, hadd, hstop, bind, Except.bind]
        split
        · rfl
        · next hlong =>
          have hslice : (slice bytes (HEADER_SIZE + field bytes 24 2 * SEGMENT_SIZE)
              (HEADER_SIZE + field bytes 24 2 * SEGMENT_SIZE + 4) : Run ElfError (List Byte)) =
              .ok ((bytes.drop (HEADER_SIZE + field bytes 24 2 * SEGMENT_SIZE)).take 4) := by
            rw [slice_ok (Nat.le_add_right _ 4) (Nat.not_lt.mp hlong), Nat.add_sub_cancel_left]
          simp only [hslice]
          split <;> rfl

theorem wrapperParse_spec {bytes : List Byte} {w : Wrapper} (h : Wrapper.parse bytes = .ok w) :
    w.elfOffset = HEADER_SIZE + w.segmentCount * SEGMENT_SIZE ∧ w.elfOffset + 4 ≤ bytes.length := by
  unfold Wrapper.parse at h
  split at h
  · cases h
  · split at h
    · cases h
    · dsimp only at h
      split at h
      · cases h
      · split at h
        · cases h
        · next hlong =>
          split at h
          · cases h
          · cases h
            exact ⟨rfl, Nat.not_lt.mp hlong⟩

theorem parsePlain_spec {bytes : List Byte} {c : Container}
    (h : Container.parsePlain bytes = .ok c) :
    c = ⟨bytes, ⟨field bytes 24 8, field bytes 32 8, field bytes 54 2, field bytes 56 2⟩, none⟩ := by
  unfold Container.parsePlain at h
  split at h
  · cases h
  · split at h
    · cases h
    · split at h
      · cases h
      · cases h
        rfl

theorem parse_exact (bytes : List Byte) : parse bytes = lift (Container.parse bytes) := by
  unfold parse Container.parse
  split
  · rw [lift_bind, parseWrapper_exact]
    cases hwrapper : Wrapper.parse bytes with
    | error e => rfl
    | ok wrapper =>
        have hspec := wrapperParse_spec hwrapper
        have hslice : (sliceFrom bytes wrapper.elfOffset : Run ElfError (List Byte)) =
            .ok (bytes.drop wrapper.elfOffset) := sliceFrom_ok (by omega)
        simp only [lift_ok, bind, Except.bind, hslice]
        cases Container.parsePlain (bytes.drop wrapper.elfOffset) <;> rfl
  · rfl

theorem held_of_parse {whole : List Byte} {c : Container} (hshort : whole.length < longest)
    (h : Container.parse whole = .ok c) : Held whole c := by
  unfold Container.parse at h
  split at h
  · cases hwrapper : Wrapper.parse whole with
    | error e =>
        rw [hwrapper] at h
        cases h
    | ok wrapper =>
        have hspec := wrapperParse_spec hwrapper
        rw [hwrapper] at h
        change (Container.parsePlain (whole.drop wrapper.elfOffset) >>= _) = _ at h
        cases hplain : Container.parsePlain (whole.drop wrapper.elfOffset) with
        | error e =>
            rw [hplain] at h
            cases h
        | ok plain =>
            rw [hplain] at h
            cases h
            rw [parsePlain_spec hplain]
            refine ⟨hshort, ?_, field_lt _ 56 2, field_lt _ 54 2, ?_⟩
            · rw [List.length_drop]
              exact Nat.sub_le _ _
            · intro w hw
              cases hw
              omega
  · rw [parsePlain_spec h]
    refine ⟨hshort, le_rfl, field_lt _ 56 2, field_lt _ 54 2, ?_⟩
    intro w hw
    cases hw

section

variable {whole : List Byte} {c : Container}

theorem segment_exact {w : Wrapper} {i : Nat} (hshort : whole.length < longest)
    (hi : i < w.segmentCount)
    (htable : HEADER_SIZE + w.segmentCount * SEGMENT_SIZE ≤ whole.length) :
    segment whole i =
      lift (match WrapperSegment.readFromPrefix (whole.drop (HEADER_SIZE + i * SEGMENT_SIZE)) with
        | none => .error (.truncated (HEADER_SIZE + i * SEGMENT_SIZE) SEGMENT_SIZE
            (whole.length - (HEADER_SIZE + i * SEGMENT_SIZE)))
        | some s => .ok s) := by
  have hbound : longest < bound := by decide
  unfold SEGMENT_SIZE HEADER_SIZE at *
  have hmul : (mul i 32 : Run ElfError Nat) = .ok (i * 32) := mul_ok (by omega)
  have hadd : (add 32 (i * 32) : Run ElfError Nat) = .ok (32 + i * 32) := add_ok (by omega)
  have hslice : (sliceFrom whole (32 + i * 32) : Run ElfError (List Byte)) =
      .ok (whole.drop (32 + i * 32)) := sliceFrom_ok (by omega)
  simp only [segment, SEGMENT_SIZE, HEADER_SIZE, hmul, hadd, hslice, bind, Except.bind]
  cases WrapperSegment.readFromPrefix (whole.drop (32 + i * 32)) <;> rfl

theorem segments_exact {w : Wrapper} (hshort : whole.length < longest)
    (htable : HEADER_SIZE + w.segmentCount * SEGMENT_SIZE ≤ whole.length) :
    segments w whole = lift (w.segments whole) := by
  apply mapM_lift
  intro i hi
  exact segment_exact hshort (List.mem_range.mp hi) htable

/-- A range that ends inside the bytes did not saturate. -/
theorem range_eq {s : WrapperSegment} (hshort : whole.length < longest)
    (h : s.range.2 ≤ whole.length) : s.range.2 = s.range.1 + s.storedSize := by
  have hbound : longest < bound := by decide
  simp only [WrapperSegment.range, saturatingAdd] at h ⊢
  omega

theorem dataForProgramHeader_exact {w : Wrapper} (hshort : whole.length < longest)
    (htable : HEADER_SIZE + w.segmentCount * SEGMENT_SIZE ≤ whole.length) (index : Nat) :
    dataForProgramHeader w whole index = lift (w.dataForProgramHeader whole index) := by
  unfold dataForProgramHeader Wrapper.dataForProgramHeader
  rw [segments_exact hshort htable, lift_bind]
  congr 1
  funext segs
  cases segs.find? (fun s => s.hasData && s.programHeaderIndex == index) with
  | none => rfl
  | some s =>
      dsimp only
      split
      · rfl
      · next hlong =>
        have hrange : s.range.1 ≤ s.range.2 := by
          rw [range_eq hshort (Nat.not_lt.mp hlong)]
          exact Nat.le_add_right _ _
        have hslice : (slice whole s.range.1 s.range.2 : Run ElfError (List Byte)) =
            .ok ((whole.drop s.range.1).take (s.range.2 - s.range.1)) :=
          slice_ok hrange (Nat.not_lt.mp hlong)
        rw [hslice]
        rfl

theorem programHeader_exact (held : Held whole c) {i : Nat} (hi : i < c.header.phnum)
    (hfit : saturatingAdd c.header.phoff (c.header.phnum * c.header.phentsize) ≤ c.bytes.length) :
    programHeader c i =
      lift (match Elf64ProgramHeader.readFromPrefix
          (c.bytes.drop (c.header.phoff + i * c.header.phentsize)) with
        | none => .error (.truncated (c.header.phoff + i * c.header.phentsize) programHeaderSize
            (c.bytes.length - (c.header.phoff + i * c.header.phentsize)))
        | some ph => .ok ph) := by
  have hbound : longest < bound := by decide
  have hinner := held.inner
  have hshort := held.short
  have hproduct : i * c.header.phentsize ≤ c.header.phnum * c.header.phentsize :=
    Nat.mul_le_mul_right _ (Nat.le_of_lt hi)
  have hend : c.header.phoff + i * c.header.phentsize ≤ c.bytes.length := by
    unfold saturatingAdd at hfit
    omega
  have hmul : (mul i c.header.phentsize : Run ElfError Nat) = .ok (i * c.header.phentsize) :=
    mul_ok (by omega)
  have hadd : (add c.header.phoff (i * c.header.phentsize) : Run ElfError Nat) =
      .ok (c.header.phoff + i * c.header.phentsize) := add_ok (by omega)
  have hslice : (sliceFrom c.bytes (c.header.phoff + i * c.header.phentsize) :
      Run ElfError (List Byte)) =
      .ok (c.bytes.drop (c.header.phoff + i * c.header.phentsize)) := sliceFrom_ok hend
  have hsub : (sub c.bytes.length (c.header.phoff + i * c.header.phentsize) :
      Run ElfError Nat) =
      .ok (c.bytes.length - (c.header.phoff + i * c.header.phentsize)) := sub_ok hend
  simp only [programHeader, hmul, hadd, hslice, bind, Except.bind]
  cases Elf64ProgramHeader.readFromPrefix
    (c.bytes.drop (c.header.phoff + i * c.header.phentsize)) with
  | none =>
      simp only [hsub]
      rfl
  | some ph => rfl

theorem programHeaders_exact (held : Held whole c) : programHeaders c = lift c.programHeaders := by
  unfold programHeaders Container.programHeaders
  dsimp only
  split
  · rfl
  · next hfit =>
    apply mapM_lift
    intro i hi
    exact programHeader_exact held (List.mem_range.mp hi) (Nat.not_lt.mp hfit)

theorem segmentData_exact (held : Held whole c) (index : Nat) :
    segmentData c whole index = lift (c.segmentData whole index) := by
  unfold segmentData Container.segmentData
  cases hw : c.wrapper with
  | some wrapper => exact dataForProgramHeader_exact held.short (held.table wrapper hw) index
  | none =>
      dsimp only
      rw [programHeaders_exact held, lift_bind]
      congr 1
      funext headers
      cases headers[index]? <;> rfl

theorem coveringOffset_exact (vaddr : Nat) (ph : Elf64ProgramHeader) :
    coveringOffset whole vaddr ph = .ok (Container.coveringOffset whole vaddr ph) := by
  unfold coveringOffset Container.coveringOffset
  split
  · rfl
  · next hcovers =>
    have hle : ph.vaddr ≤ vaddr := by
      simp only [Elf64ProgramHeader.covers, Bool.not_eq_true, Bool.not_eq_false',
        Bool.and_eq_true, decide_eq_true_eq] at hcovers
      exact hcovers.1.2
    have hsub : (sub vaddr ph.vaddr : Run ElfError Nat) = .ok (vaddr - ph.vaddr) := sub_ok hle
    simp only [hsub, bind, Except.bind]
    cases checkedAdd ph.offset (vaddr - ph.vaddr) <;> rfl

theorem firstCovering_exact (vaddr : Nat) (headers : List Elf64ProgramHeader) :
    firstCovering whole vaddr headers =
      .ok (headers.findSome? (Container.coveringOffset whole vaddr)) := by
  induction headers with
  | nil => rfl
  | cons ph rest ih =>
      rw [firstCovering, coveringOffset_exact, List.findSome?_cons]
      simp only [bind, Except.bind]
      cases Container.coveringOffset whole vaddr ph with
      | some at' => rfl
      | none => exact ih

theorem bareVaddrToOffset_exact (held : Held whole c) (vaddr : Nat) :
    bareVaddrToOffset c whole vaddr = lift (c.bareVaddrToOffset whole vaddr) := by
  unfold bareVaddrToOffset Container.bareVaddrToOffset
  rw [programHeaders_exact held, lift_bind]
  congr 1
  funext headers
  rw [firstCovering_exact, firstCovering_exact]
  simp only [bind, Except.bind]
  cases (headers.filter (fun ph => ph.pType == BARE_PT_LOAD)).findSome?
    (Container.coveringOffset whole vaddr) <;> rfl

/-- Located bytes are those of the first descriptor that serves the header, and inside. -/
theorem located_spec {w : Wrapper} {index : Nat} {data : List Byte}
    (hshort : whole.length < longest)
    (h : w.dataForProgramHeader whole index = .ok (some data)) :
    ∃ segs s, w.segments whole = .ok segs ∧
      segs.find? (fun s => s.hasData && s.programHeaderIndex == index) = some s ∧
        s.range.1 + data.length ≤ whole.length := by
  unfold Wrapper.dataForProgramHeader at h
  cases hsegs : w.segments whole with
  | error e =>
      rw [hsegs] at h
      cases h
  | ok segs =>
      rw [hsegs] at h
      simp only [bind, Except.bind] at h
      cases hfind : segs.find? (fun s => s.hasData && s.programHeaderIndex == index) with
      | none =>
          rw [hfind] at h
          cases h
      | some s =>
          rw [hfind] at h
          simp only at h
          split at h
          · cases h
          · next hlong =>
            have hrange := range_eq hshort (Nat.not_lt.mp hlong)
            have hdata := Option.some.inj (Except.ok.inj h)
            refine ⟨segs, s, rfl, hfind, ?_⟩
            rw [← hdata, List.length_take, List.length_drop]
            omega

theorem outward_exact {w : Wrapper} (hshort : whole.length < longest)
    (htable : HEADER_SIZE + w.segmentCount * SEGMENT_SIZE ≤ whole.length) (vaddr : Nat)
    (headers : List (Elf64ProgramHeader × Nat)) :
    outward w whole vaddr headers = lift (Container.outward w whole vaddr headers) := by
  have hbound : longest < bound := by decide
  induction headers with
  | nil => rfl
  | cons header rest ih =>
      obtain ⟨outer, index⟩ := header
      rw [outward, Container.outward]
      split
      · exact ih
      · next hcovers =>
        have hle : outer.vaddr ≤ vaddr := by
          simp only [Elf64ProgramHeader.covers, Bool.not_eq_true, Bool.not_eq_false',
            Bool.and_eq_true, decide_eq_true_eq] at hcovers
          exact hcovers.1.2
        rw [dataForProgramHeader_exact hshort htable]
        cases hdata : w.dataForProgramHeader whole index with
        | error e => rfl
        | ok located =>
            cases located with
            | none => exact ih
            | some data =>
                obtain ⟨segs, s, hsegs, hfind, hinside⟩ := located_spec hshort hdata
                have hsub : (sub vaddr outer.vaddr : Run ElfError Nat) =
                    .ok (vaddr - outer.vaddr) := sub_ok hle
                have hstart : (sub whole.length data.length : Run ElfError Nat) =
                    .ok (whole.length - data.length) := sub_ok (by omega)
                simp only [lift_ok, bind, Except.bind, hsub]
                by_cases hwithin : vaddr - outer.vaddr < data.length
                · have hadd : (add s.range.1 (vaddr - outer.vaddr) : Run ElfError Nat) =
                      .ok (s.range.1 + (vaddr - outer.vaddr)) := add_ok (by omega)
                  simp only [if_pos hwithin, hstart, segments_exact hshort htable, hsegs, lift_ok,
                    hfind, hadd]
                  rfl
                · simp only [if_neg hwithin]
                  exact ih

theorem covered_exact {w : Wrapper} (hshort : whole.length < longest)
    (htable : HEADER_SIZE + w.segmentCount * SEGMENT_SIZE ≤ whole.length) (vaddr : Nat)
    (all headers : List Elf64ProgramHeader) :
    covered w whole vaddr all headers = lift (Container.covered w whole vaddr all headers) := by
  induction headers with
  | nil => rfl
  | cons ph rest ih =>
      rw [covered, Container.covered]
      split
      · exact ih
      · rw [outward_exact hshort htable]
        cases Container.outward w whole vaddr all.zipIdx with
        | error e => rfl
        | ok located =>
            cases located with
            | none => exact ih
            | some at' => rfl

theorem vaddrToOffset_exact (held : Held whole c) (vaddr : Nat) :
    vaddrToOffset c whole vaddr = lift (c.vaddrToOffset whole vaddr) := by
  unfold vaddrToOffset Container.vaddrToOffset
  cases hw : c.wrapper with
  | none => exact bareVaddrToOffset_exact held vaddr
  | some wrapper =>
      dsimp only
      rw [programHeaders_exact held, lift_bind]
      congr 1
      funext headers
      exact covered_exact held.short (held.table wrapper hw) vaddr headers headers

theorem bytesByOffset_exact {w : Wrapper} (hshort : whole.length < longest)
    (htable : HEADER_SIZE + w.segmentCount * SEGMENT_SIZE ≤ whole.length) (dynOffset size : Nat)
    (headers : List (Elf64ProgramHeader × Nat)) :
    bytesByOffset w whole dynOffset size headers =
      lift (Container.bytesByOffset w whole dynOffset size headers) := by
  induction headers with
  | nil => rfl
  | cons header rest ih =>
      obtain ⟨outer, index⟩ := header
      rw [bytesByOffset, Container.bytesByOffset]
      split
      · exact ih
      · next hcovers =>
        have hle : outer.offset ≤ dynOffset := by
          simp only [Elf64ProgramHeader.coversOffset, Bool.not_eq_true, Bool.not_eq_false',
            Bool.and_eq_true, decide_eq_true_eq] at hcovers
          exact hcovers.1.2
        have hsub : (sub dynOffset outer.offset : Run ElfError Nat) =
            .ok (dynOffset - outer.offset) := sub_ok hle
        rw [segments_exact hshort htable]
        cases w.segments whole with
        | error e => rfl
        | ok segs =>
            simp only [lift_ok, bind, Except.bind, hsub]
            cases segs.find? (fun s => s.hasData && s.programHeaderIndex == index) with
            | none => exact ih
            | some s => rfl

theorem dynamicBytesByOffset_exact (held : Held whole c) (dynOffset size : Nat) :
    dynamicBytesByOffset c whole dynOffset size =
      lift (c.dynamicBytesByOffset whole dynOffset size) := by
  unfold dynamicBytesByOffset Container.dynamicBytesByOffset
  cases hw : c.wrapper with
  | none => rfl
  | some wrapper =>
      dsimp only
      rw [programHeaders_exact held, lift_bind]
      congr 1
      funext headers
      exact bytesByOffset_exact held.short (held.table wrapper hw) dynOffset size _

theorem dynamicBytes_exact (held : Held whole c) :
    dynamicBytes c whole = lift (c.dynamicBytes whole) := by
  unfold dynamicBytes Container.dynamicBytes
  rw [programHeaders_exact held, lift_bind]
  congr 1
  funext headers
  cases headers.find? (fun ph => ph.pType == PT_DYNAMIC) with
  | none => rfl
  | some ph =>
      dsimp only
      have htail (byVaddr : Option (List Byte)) (usable : List Byte → Bool) :
          (if c.wrapper.isSome && !byVaddr.any usable then do
            match ← dynamicBytesByOffset c whole ph.offset ph.filesz with
            | some bytes => if usable bytes then pure (some bytes) else pure byVaddr
            | none => pure byVaddr
          else pure byVaddr : Run ElfError (Option (List Byte))) =
          lift (if c.wrapper.isSome && !byVaddr.any usable then do
            match ← c.dynamicBytesByOffset whole ph.offset ph.filesz with
            | some bytes => if usable bytes then .ok (some bytes) else .ok byVaddr
            | none => .ok byVaddr
          else .ok byVaddr) := by
        split
        · rw [dynamicBytesByOffset_exact held, lift_bind]
          congr 1
          funext found
          cases found with
          | none => rfl
          | some bytes =>
              dsimp only
              split <;> rfl
        · rfl
      by_cases hw : c.wrapper.isSome = true
      · rw [if_pos hw, if_pos hw, vaddrToOffset_exact held, lift_bind]
        congr 1
        funext at'
        exact htail _ _
      · rw [if_neg hw, if_neg hw]
        exact htail _ _

end

end Orbistoun.Loader.Checked
