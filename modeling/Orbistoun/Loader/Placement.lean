import Orbistoun.Loader.Image

/-! # What a container must be for it to be placed faithfully

Loading trusts two things of a container that nothing checks: that what it holds for a
segment fits where the span was reserved for the segment's memory, and that no segment
reaches into the memory of another with different bytes. Faithfully placed are exactly the
containers for which these hold.
-/

namespace Orbistoun.Loader

open Orbistoun.Lib.U64 (bound saturatingAdd)
open Orbistoun.Lib.Writes
open Orbistoun.Mem.Space (AddressSpace MemError)

/-- A loadable segment and the bytes the container holds for it. -/
structure Segment where
  header : Elf64ProgramHeader
  data : List Byte
  deriving DecidableEq, Repr

namespace Segment

/-- How much of the container's bytes is copied. -/
def copied (s : Segment) : Nat := min s.data.length s.header.filesz

/-- What the `.bss` of a segment is given at an offset into it: zero, or under a fill the
markers and the fill after the last of them. -/
def bssByte (fill : Byte) (tail len offset : Nat) : Byte :=
  if fill = 0 then 0
  else if offset < len / 8 * 8 then
    ((marker fill (tail + offset / 8 * 8))[offset % 8]?).getD fill
  else fill

def byte? (fill : Byte) (base : Nat) (s : Segment) (x : Nat) : Option Byte :=
  let address := s.header.address base
  if x < address then none
  else if x < address + s.copied then s.data[x - address]?
  else if x < address + s.header.memsz then
    some (bssByte fill (address + s.copied) (s.header.memsz - s.copied) (x - (address + s.copied)))
  else none

end Segment

/-- What the last of the segments that reach an address gives to it. -/
def lastByte? (fill : Byte) (base : Nat) : List Segment → Nat → Option Byte
  | [], _ => none
  | s :: rest, x => (lastByte? fill base rest x).or (s.byte? fill base x)

def located (c : Container) (whole : List Byte) : Loadable → List Segment × Bool
  | [] => ([], true)
  | (index, ph) :: rest =>
      match c.segmentData whole index with
      | .error _ => ([], false)
      | .ok data => ((⟨ph, data.getD []⟩ :: (located c whole rest).1), (located c whole rest).2)

def Prepared.located (whole : List Byte) (p : Prepared) : List Segment × Bool :=
  Loader.located p.container whole p.loadable

/-- The host reserves the span. -/
def Prepared.Reserved (env : Env) (p : Prepared) : Prop :=
  (AddressSpace.new.validate p.spanBase p.spanLen false) = .ok () ∧
    env.grant p.spanBase p.spanLen = .ok ()

/-- What loading trusts of a container: its bytes for each segment end inside the span; if an
executable segment has more of them than `p_filesz`, the sites patched are inside the span
too; and where a segment's memory is reached by others, the last to reach it gives the byte
the segment's memory is to hold. -/
structure Trusted (env : Env) (whole : List Byte) (base : Nat) (p : Prepared) : Prop where
  fits : ∀ s ∈ (p.located whole).1, s.header.address base + s.copied ≤ p.spanEnd
  patches : (p.located whole).2 = true →
    (∃ s ∈ (p.located whole).1, s.header.executable = true ∧ s.header.filesz < s.data.length) →
    ∀ w ∈ p.rewrite.patches, ∀ x, w.Reaches x → p.spanBase ≤ x ∧ x < p.spanEnd
  agrees : (p.located whole).2 = true → ∀ s ∈ (p.located whole).1, ∀ k < s.header.memsz,
    ¬ p.Patched (base + s.header.vaddr + k) →
    lastByte? env.fill base (p.located whole).1 (base + s.header.vaddr + k) =
      some (s.header.wanted s.data k)

/-! ## The span -/

theorem layout_ok {granularity : Nat} {c : Container} {base page : Nat} {loadable : Loadable}
    {spanBase codeLen : Nat} (h : layout granularity c base page = .ok (loadable, spanBase, codeLen)) :
    ∃ headers lowest highest, c.programHeaders = .ok headers ∧
      loadable = (headers.zipIdx.filter (fun e => e.1.loads)).map Prod.swap ∧
      (∀ e ∈ loadable, lowest ≤ e.2.address base) ∧
      (∀ e ∈ loadable, saturatingAdd (e.2.address base) e.2.memsz ≤ highest) ∧
      (∃ e ∈ loadable, highest = saturatingAdd (e.2.address base) e.2.memsz) ∧
      spanBase ≤ lowest ∧
      codeLen = saturatingMul (divCeil highest page) page - spanBase := by
  unfold layout at h
  split at h
  · cases h
  · next headers hheaders =>
    dsimp only at h
    split at h
    · cases h
    · next hne =>
      injection h with h
      injection h with hload h
      injection h with hbase hlen
      rw [hload] at hbase hlen hne
      have hsome : loadable ≠ [] := by
        intro hnil
        rw [hnil] at hne
        exact hne rfl
      obtain ⟨lowest, hlow⟩ := Option.isSome_iff_exists.mp
        (List.isSome_min?_of_ne_nil (mt List.map_eq_nil_iff.mp hsome) :
          ((loadable.map (fun e => e.2.address base)).min?).isSome)
      obtain ⟨highest, hhigh⟩ := Option.isSome_iff_exists.mp
        (List.isSome_max?_of_ne_nil (mt List.map_eq_nil_iff.mp hsome) :
          ((loadable.map (fun e => saturatingAdd (e.2.address base) e.2.memsz)).max?).isSome)
      rw [hlow] at hbase hlen
      rw [hhigh] at hlen
      simp only [Option.getD_some] at hbase hlen
      have hmin := List.min?_eq_some_iff.mp hlow
      have hmax := List.max?_eq_some_iff.mp hhigh
      obtain ⟨e, he, hhighest⟩ := List.mem_map.mp hmax.1
      refine ⟨headers, lowest, highest, hheaders, hload.symm,
        fun e he => hmin.2 _ (List.mem_map_of_mem he), fun e he => hmax.2 _ (List.mem_map_of_mem he),
        ⟨e, he, hhighest.symm⟩, ?_, ?_⟩
      · rw [← hbase]
        exact Nat.div_mul_le_self _ _
      · rw [← hbase]
        exact hlen.symm

theorem le_divCeil_mul (x page : Nat) (hpage : 0 < page) : x ≤ divCeil x page * page := by
  unfold divCeil
  have hdiv := Nat.div_add_mod x page
  have hlt := Nat.mod_lt x hpage
  rw [Nat.mul_comm] at hdiv
  split
  · rw [Nat.add_zero]
    omega
  · rw [Nat.add_mul, Nat.one_mul]
    omega

/-- What is known of a span the host reserved: nothing in it was cut short by the last
address, and every segment's memory lies before the trampolines. -/
structure Prepared.Spans (base : Nat) (p : Prepared) : Prop where
  segment : ∀ e ∈ p.loadable, e.2.address base = base + e.2.vaddr ∧
    p.spanBase ≤ base + e.2.vaddr ∧ base + e.2.vaddr + e.2.memsz ≤ p.roomAt
  room : p.roomAt + p.rewrite.room.length ≤ p.spanEnd
  start : p.spanBase ≤ p.roomAt
  word : p.spanEnd < bound

theorem prepare_ok {env : Env} {whole : List Byte} {base page : Nat} {host : Host} {p : Prepared}
    (h : prepare env whole base page host = .ok p) :
    layout env.granularity p.container base page = .ok (p.loadable, p.spanBase, p.codeLen) ∧
      codeOf p.container whole base p.loadable = .ok p.code ∧
      p.roomAt = saturatingAdd p.spanBase p.codeLen ∧
      p.rewrite = plan env.decoder env.detected p.code host p.roomAt ∧
      p.roomLen = saturatingMul (divCeil p.rewrite.room.length page) page ∧
      p.spanLen = saturatingAdd p.codeLen p.roomLen := by
  unfold prepare at h
  split at h
  · cases h
  · split at h
    · cases h
    · next hlayout =>
      split at h
      · cases h
      · next hcode =>
        cases h
        exact ⟨hlayout, hcode, rfl, rfl, rfl, rfl⟩

/-- A span that is page-aligned and ends at a word is not one that was cut short. -/
theorem spans_of_reserved {env : Env} {whole : List Byte} {base page : Nat} {host : Host}
    {p : Prepared} (hpage : 0 < page)
    (hgrant : ∀ start len, env.grant start len = .ok () → start + len < bound)
    (h : prepare env whole base page host = .ok p) (hreserved : p.Reserved env) :
    p.Spans base := by
  obtain ⟨hlayout, -, hroomAt, hrewrite, hroomLen, hspanLen⟩ := prepare_ok h
  obtain ⟨headers, lowest, highest, -, -, hlow, hhigh, ⟨top, htop, hhighest⟩, hbase, hcodeLen⟩ :=
    layout_ok hlayout
  have hword := hgrant _ _ hreserved.2
  obtain ⟨hpages, hlen, haligned, -⟩ := AddressSpace.validate_ok hreserved.1
  have hceil := le_divCeil_mul highest page hpage
  have hroom := le_divCeil_mul p.rewrite.room.length page hpage
  have hbound : bound = 2 ^ 64 := rfl
  have hpageSize : Orbistoun.Mem.Space.guestPageSize = 4096 := rfl
  have htopLow := hlow top htop
  unfold saturatingAdd at hroomAt hspanLen hhighest hhigh
  unfold saturatingMul at hcodeLen hroomLen
  rw [hpageSize] at hpages haligned
  have haddress : top.2.address base ≤ bound - 1 := Nat.min_le_right _ _
  -- the last word is no page boundary, so neither end was cut short
  have hexact : divCeil highest page * page < bound - 1 := by omega
  have hat : p.roomAt = divCeil highest page * page := by omega
  refine ⟨fun e he => ?_, ?_, ?_, hword⟩
  · have hle := hhigh e he
    have hlowest := hlow e he
    have hmem : e.2.address base + e.2.memsz ≤ highest := by omega
    have hexactly : e.2.address base = base + e.2.vaddr := by
      unfold Elf64ProgramHeader.address saturatingAdd at hmem hlowest ⊢
      omega
    omega
  · unfold Prepared.spanEnd
    omega
  · omega

/-! ## What a segment's writes leave -/

theorem length_marker (fill : Byte) (at_ : Nat) : (marker fill at_).length = 8 := by
  simp [marker]

theorem last?_slots (fill : Byte) (tail n x : Nat) :
    last? ((List.range n).map (fun slot => (⟨tail + slot * 8, marker fill (tail + slot * 8)⟩ :
      Write Byte))) x =
      if tail ≤ x ∧ x < tail + n * 8 then
        (marker fill (tail + (x - tail) / 8 * 8))[(x - tail) % 8]?
      else none := by
  induction n with
  | zero =>
      rw [if_neg (by omega)]
      rfl
  | succ n ih =>
      rw [List.range_succ, List.map_append, last?_append, List.map_singleton, last?, last?,
        Option.none_or, ih]
      by_cases hlast : tail + n * 8 ≤ x ∧ x < tail + (n + 1) * 8
      · have hslot : (x - tail) / 8 = n := by omega
        have hoffset : x - (tail + n * 8) = (x - tail) % 8 := by omega
        have hin : (x - tail) % 8 < (marker fill (tail + n * 8)).length := by
          rw [length_marker]
          exact Nat.mod_lt _ (by decide)
        have hall : tail ≤ x ∧ x < tail + (n + 1) * 8 := by omega
        rw [if_pos hall, hslot, at?_mk, if_pos hlast.1, hoffset, List.getElem?_eq_getElem hin]
        rfl
      · have hnone : Write.at? ⟨tail + n * 8, marker fill (tail + n * 8)⟩ x = none := by
          apply at?_eq_none
          rintro ⟨hlow, hhigh⟩
          dsimp only at hlow hhigh
          rw [length_marker] at hhigh
          omega
        rw [hnone, Option.none_or]
        by_cases hin : tail ≤ x ∧ x < tail + n * 8
        · rw [if_pos hin, if_pos (by omega)]
        · rw [if_neg hin, if_neg (by omega)]

theorem markBss_eq {tail len : Nat} (fill : Byte) (h : tail + len < bound) :
    markBss tail len fill = (List.range (len / 8)).map
      (fun slot => ⟨tail + slot * 8, marker fill (tail + slot * 8)⟩) := by
  unfold markBss
  apply List.map_congr_left
  intro slot hslot
  have hlt := List.mem_range.mp hslot
  have hexact : saturatingAdd tail (saturatingMul slot 8) = tail + slot * 8 := by
    unfold saturatingAdd saturatingMul
    omega
  simp only [hexact]

theorem last?_bss {tail len : Nat} (fill : Byte) (h : tail + len < bound) (x : Nat) :
    last? ((⟨tail, List.replicate len fill⟩ : Write Byte) ::
      if fill = 0 then [] else markBss tail len fill) x =
      if tail ≤ x ∧ x < tail + len then some (Segment.bssByte fill tail len (x - tail)) else none := by
  have hfill : Write.at? ⟨tail, List.replicate len fill⟩ x =
      if tail ≤ x ∧ x < tail + len then some fill else none := by
    rw [at?_mk]
    by_cases hlow : tail ≤ x
    · rw [if_pos hlow, List.getElem?_replicate]
      by_cases hhigh : x < tail + len
      · rw [if_pos (by omega), if_pos ⟨hlow, hhigh⟩]
      · rw [if_neg (by omega), if_neg (by omega)]
    · rw [if_neg hlow, if_neg (by omega)]
  rw [last?, hfill]
  unfold Segment.bssByte
  by_cases hzero : fill = 0
  · rw [if_pos hzero, if_pos hzero, last?, Option.none_or, hzero]
  · rw [if_neg hzero, if_neg hzero, markBss_eq fill h, last?_slots]
    by_cases hslot : tail ≤ x ∧ x < tail + len / 8 * 8
    · have hoffset : (x - tail) % 8 < (marker fill (tail + (x - tail) / 8 * 8)).length := by
        rw [length_marker]
        exact Nat.mod_lt _ (by decide)
      have hin : tail ≤ x ∧ x < tail + len := by omega
      have hbefore : x - tail < len / 8 * 8 := by omega
      rw [if_pos hslot, if_pos hin, if_pos hin, if_pos hbefore, List.getElem?_eq_getElem hoffset]
      rfl
    · rw [if_neg hslot, Option.none_or]
      by_cases hin : tail ≤ x ∧ x < tail + len
      · have hafter : ¬ x - tail < len / 8 * 8 := by omega
        rw [if_pos hin, if_pos hin, if_neg hafter]
      · rw [if_neg hin, if_neg hin]

theorem last?_segmentWrites {fill : Byte} {ph : Elf64ProgramHeader} {base : Nat} {data : List Byte}
    (h : ph.address base + ph.memsz < bound) (x : Nat) :
    last? (segmentWrites fill ph base data) x = Segment.byte? fill base ⟨ph, data⟩ x := by
  have hcopied : Segment.copied ⟨ph, data⟩ = min data.length ph.filesz := rfl
  have hcopy : Write.at? ⟨ph.address base, data.take (Segment.copied ⟨ph, data⟩)⟩ x =
      if ph.address base ≤ x ∧ x < ph.address base + Segment.copied ⟨ph, data⟩ then
        data[x - ph.address base]?
      else none := by
    rw [at?_mk]
    by_cases hlow : ph.address base ≤ x
    · rw [if_pos hlow, List.getElem?_take]
      by_cases hhigh : x < ph.address base + Segment.copied ⟨ph, data⟩
      · rw [if_pos (by omega), if_pos ⟨hlow, hhigh⟩]
      · rw [if_neg (by omega), if_neg (by omega)]
    · rw [if_neg hlow, if_neg (by omega)]
  have hshape : segmentWrites fill ph base data =
      ⟨ph.address base, data.take (Segment.copied ⟨ph, data⟩)⟩ ::
        if 0 < ph.memsz - Segment.copied ⟨ph, data⟩ then
          ⟨saturatingAdd (ph.address base) (Segment.copied ⟨ph, data⟩),
            List.replicate (ph.memsz - Segment.copied ⟨ph, data⟩) fill⟩ ::
            if fill = 0 then []
            else markBss (saturatingAdd (ph.address base) (Segment.copied ⟨ph, data⟩))
              (ph.memsz - Segment.copied ⟨ph, data⟩) fill
        else [] := rfl
  rw [hshape, last?, hcopy]
  unfold Segment.byte?
  dsimp only
  by_cases hbss : 0 < ph.memsz - Segment.copied ⟨ph, data⟩
  · have htail : saturatingAdd (ph.address base) (Segment.copied ⟨ph, data⟩) =
        ph.address base + Segment.copied ⟨ph, data⟩ := by
      unfold saturatingAdd
      omega
    rw [if_pos hbss, htail, last?_bss fill (by omega)]
    split_ifs <;> first | rfl | omega
  · rw [if_neg hbss, last?, Option.none_or]
    split_ifs <;> first | rfl | omega

/-! ## The loop over the segments -/

theorem mem_loadable {headers : List Elf64ProgramHeader} {e : Nat × Elf64ProgramHeader} :
    e ∈ (headers.zipIdx.filter (fun e => e.1.loads)).map Prod.swap ↔
      headers[e.1]? = some e.2 ∧ e.2.loads = true := by
  rw [List.mem_map]
  constructor
  · rintro ⟨⟨ph, index⟩, hmem, rfl⟩
    obtain ⟨hmem, hloads⟩ := List.mem_filter.mp hmem
    exact ⟨List.mem_zipIdx_iff_getElem?.mp hmem, hloads⟩
  · rintro ⟨hget, hloads⟩
    exact ⟨(e.2, e.1), List.mem_filter.mpr ⟨List.mem_zipIdx_iff_getElem?.mpr hget, hloads⟩, rfl⟩

theorem placeSegments_eq (env : Env) (c : Container) (whole : List Byte) (base : Nat)
    (loadable : Loadable) :
    (placeSegments env c whole base loadable).1 = (located c whole loadable).1.flatMap
        (fun s => segmentWrites env.fill s.header base s.data) ∧
      ((∃ placed, (placeSegments env c whole base loadable).2 = .ok placed) ↔
        (located c whole loadable).2 = true) := by
  induction loadable with
  | nil => exact ⟨rfl, fun _ => rfl, fun _ => ⟨[], rfl⟩⟩
  | cons e rest ih =>
      obtain ⟨index, ph⟩ := e
      unfold placeSegments located
      cases hdata : c.segmentData whole index with
      | error _ => exact ⟨rfl, by simp⟩
      | ok data =>
          dsimp only
          rw [ih.1, List.flatMap_cons]
          refine ⟨rfl, Iff.trans ?_ ih.2⟩
          cases (placeSegments env c whole base rest).2 with
          | error _ => simp [Except.map]
          | ok placed => exact ⟨fun _ => ⟨placed, rfl⟩, fun _ => ⟨_, rfl⟩⟩

theorem mem_located {c : Container} {whole : List Byte} {loadable : Loadable} {s : Segment}
    (h : s ∈ (located c whole loadable).1) :
    ∃ index data, (index, s.header) ∈ loadable ∧ c.segmentData whole index = .ok data ∧
      s.data = data.getD [] := by
  induction loadable with
  | nil => cases h
  | cons e rest ih =>
      obtain ⟨index, ph⟩ := e
      unfold located at h
      cases hdata : c.segmentData whole index with
      | error _ =>
          rw [hdata] at h
          cases h
      | ok data =>
          rw [hdata] at h
          rcases List.mem_cons.mp h with rfl | h
          · exact ⟨index, data, List.mem_cons_self, hdata, rfl⟩
          · obtain ⟨i, d, hmem, hrest⟩ := ih h
            exact ⟨i, d, List.mem_cons_of_mem _ hmem, hrest⟩

theorem located_mem {c : Container} {whole : List Byte} {loadable : Loadable} {index : Nat}
    {ph : Elf64ProgramHeader} {data : Option (List Byte)} (hall : (located c whole loadable).2 = true)
    (h : (index, ph) ∈ loadable) (hdata : c.segmentData whole index = .ok data) :
    (⟨ph, data.getD []⟩ : Segment) ∈ (located c whole loadable).1 := by
  induction loadable with
  | nil => cases h
  | cons e rest ih =>
      unfold located at hall ⊢
      rcases List.mem_cons.mp h with rfl | h
      · rw [hdata]
        exact List.mem_cons_self
      · cases hother : c.segmentData whole e.1 with
        | error _ =>
            rw [hother] at hall
            cases hall
        | ok other =>
            rw [hother] at hall
            exact List.mem_cons_of_mem _ (ih hall h)

theorem last?_segments {fill : Byte} {base : Nat} {segments : List Segment}
    (h : ∀ s ∈ segments, s.header.address base + s.header.memsz < bound) (x : Nat) :
    last? (segments.flatMap (fun s => segmentWrites fill s.header base s.data)) x =
      lastByte? fill base segments x := by
  induction segments with
  | nil => rfl
  | cons s segments ih =>
      rw [List.flatMap_cons, last?_append, lastByte?, ih (fun t ht => h t (List.mem_cons_of_mem _ ht)),
        last?_segmentWrites (h s List.mem_cons_self)]

theorem mem_codeOf {c : Container} {whole : List Byte} {base : Nat} {loadable : Loadable}
    {code : List (List Byte × Nat)} (h : codeOf c whole base loadable = .ok code)
    {entry : List Byte × Nat} (hentry : entry ∈ code) :
    ∃ index ph, (index, ph) ∈ loadable ∧ ph.executable = true ∧
      c.segmentData whole index = .ok (some entry.1) ∧ entry.2 = ph.address base := by
  induction loadable generalizing code with
  | nil =>
      cases h
      cases hentry
  | cons e rest ih =>
      obtain ⟨index, ph⟩ := e
      unfold codeOf at h
      split at h
      · next hexec =>
        split at h
        · cases h
        · obtain ⟨i, p, hmem, hp⟩ := ih h hentry
          exact ⟨i, p, List.mem_cons_of_mem _ hmem, hp⟩
        · next bytes hdata =>
          cases hcode : codeOf c whole base rest with
          | error _ =>
              rw [hcode] at h
              cases h
          | ok code' =>
              rw [hcode] at h
              cases h
              rcases List.mem_cons.mp hentry with rfl | hentry
              · exact ⟨index, ph, List.mem_cons_self, hexec, hdata, rfl⟩
              · obtain ⟨i, p, hmem, hp⟩ := ih hcode hentry
                exact ⟨i, p, List.mem_cons_of_mem _ hmem, hp⟩
      · obtain ⟨i, p, hmem, hp⟩ := ih h hentry
        exact ⟨i, p, List.mem_cons_of_mem _ hmem, hp⟩

/-! ## Faithful placement -/

theorem place_reserved {env : Env} {p : Prepared} (whole : List Byte) (base : Nat)
    (h : p.Reserved env) :
    (p.place env whole base).span = some (p.spanBase, p.spanLen) ∧
      (p.place env whole base).writes =
        (p.located whole).1.flatMap (fun s => segmentWrites env.fill s.header base s.data) ++
          (if (p.located whole).2 then p.rewrite.patches ++ [⟨p.roomAt, p.rewrite.room⟩] else []) ∧
      ((∃ image, (p.place env whole base).result = .ok image) ↔ (p.located whole).2 = true) := by
  obtain ⟨hwrites, hok⟩ := placeSegments_eq env p.container whole base p.loadable
  have hreserve : ∃ region space, AddressSpace.new.reserve p.spanBase p.spanLen readWrite
      (env.grant p.spanBase p.spanLen) = (.ok region, space) := by
    unfold AddressSpace.reserve
    rw [h.1, h.2]
    exact ⟨_, _, rfl⟩
  obtain ⟨region, space, hreserve⟩ := hreserve
  unfold Prepared.place Prepared.located
  rw [hreserve]
  obtain ⟨writes, result, hplaced⟩ : ∃ writes result,
      placeSegments env p.container whole base p.loadable = (writes, result) := ⟨_, _, rfl⟩
  rw [hplaced] at hwrites hok ⊢
  dsimp only at hwrites hok ⊢
  cases result with
  | error e =>
      have hnot : (located p.container whole p.loadable).2 = false := by
        rw [← Bool.not_eq_true, ← hok]
        rintro ⟨placed, hplaced⟩
        cases hplaced
      rw [hnot]
      exact ⟨rfl, by simpa using hwrites, by simp⟩
  | ok placed =>
      have hall := hok.mp ⟨placed, rfl⟩
      rw [hall]
      refine ⟨rfl, ?_, fun _ => rfl, fun _ => ⟨_, rfl⟩⟩
      rw [if_pos rfl, ← hwrites]
      exact List.append_assoc _ _ _

theorem place_refused {env : Env} {p : Prepared} (whole : List Byte) (base : Nat)
    (h : ¬ p.Reserved env) :
    (p.place env whole base).writes = [] ∧ ∀ image, (p.place env whole base).result ≠ .ok image := by
  have hrefused : ∃ e space, AddressSpace.new.reserve p.spanBase p.spanLen readWrite
      (env.grant p.spanBase p.spanLen) = (.error e, space) := by
    unfold AddressSpace.reserve
    cases hvalid : AddressSpace.new.validate p.spanBase p.spanLen false with
    | error e => exact ⟨_, _, rfl⟩
    | ok _ =>
        cases hgrant : env.grant p.spanBase p.spanLen with
        | error e => exact ⟨_, _, rfl⟩
        | ok _ => exact absurd ⟨hvalid, hgrant⟩ h
  obtain ⟨e, space, hrefused⟩ := hrefused
  unfold Prepared.place
  rw [hrefused]
  exact ⟨rfl, fun image h => by cases h⟩

/-- A segment gives a byte to its memory and to wherever the container's bytes for it reach. -/
theorem byte?_isSome {fill : Byte} {base : Nat} {s : Segment} {x : Nat} :
    (s.byte? fill base x).isSome = true ↔
      s.header.address base ≤ x ∧ x < s.header.address base + max s.copied s.header.memsz := by
  have hcopied : s.copied ≤ s.data.length := Nat.min_le_left _ _
  unfold Segment.byte?
  dsimp only
  split_ifs with hlow hcopy hmem
  · simp
    omega
  · rw [isSome_getElem?]
    omega
  · simp
    omega
  · simp
    omega

theorem lastByte?_isSome {fill : Byte} {base : Nat} {segments : List Segment} {x : Nat} :
    (lastByte? fill base segments x).isSome = true ↔
      ∃ s ∈ segments, (s.byte? fill base x).isSome = true := by
  induction segments with
  | nil => simp [lastByte?]
  | cons s segments ih =>
      rw [lastByte?, Option.isSome_or, Bool.or_eq_true, ih, List.exists_mem_cons_iff]
      exact or_comm

section

variable {env : Env} {whole : List Byte} {base page : Nat} {host : Host} {p : Prepared}

theorem segment_spans (hspans : p.Spans base) {s : Segment} (hs : s ∈ (p.located whole).1) :
    s.header.address base = base + s.header.vaddr ∧ p.spanBase ≤ base + s.header.vaddr ∧
      base + s.header.vaddr + s.header.memsz ≤ p.roomAt := by
  obtain ⟨index, data, hmem, -, -⟩ := mem_located hs
  exact hspans.segment _ hmem

theorem segment_word (hspans : p.Spans base) :
    ∀ s ∈ (p.located whole).1, s.header.address base + s.header.memsz < bound := by
  intro s hs
  obtain ⟨haddress, -, hmem⟩ := segment_spans hspans hs
  have hroom := hspans.room
  have hword := hspans.word
  omega

variable (env) in
theorem segments_inside_iff (hspans : p.Spans base) :
    (∀ w ∈ (p.located whole).1.flatMap (fun s => segmentWrites env.fill s.header base s.data),
      ∀ x, w.Reaches x → p.spanBase ≤ x ∧ x < p.spanEnd) ↔
      ∀ s ∈ (p.located whole).1, s.header.address base + s.copied ≤ p.spanEnd := by
  have hreach : ∀ x, (∃ w ∈ (p.located whole).1.flatMap
      (fun s => segmentWrites env.fill s.header base s.data), w.Reaches x) ↔
      ∃ s ∈ (p.located whole).1, s.header.address base ≤ x ∧
        x < s.header.address base + max s.copied s.header.memsz := by
    intro x
    rw [← last?_isSome, last?_segments (segment_word hspans), lastByte?_isSome]
    simp only [byte?_isSome]
  have hroom := hspans.room
  constructor
  · intro h s hs
    obtain ⟨haddress, hlow, hmem⟩ := segment_spans hspans hs
    by_contra hpast
    obtain ⟨w, hw, hx⟩ := (hreach (s.header.address base + s.copied - 1)).mpr
      ⟨s, hs, by omega, by omega⟩
    have hin := h w hw _ hx
    omega
  · intro h w hw x hx
    obtain ⟨s, hs, hxlow, hxhigh⟩ := (hreach x).mp ⟨w, hw, hx⟩
    obtain ⟨haddress, hlow, hmem⟩ := segment_spans hspans hs
    have hfits := h s hs
    omega

/-- Where no executable segment has more bytes than `p_filesz`, a patch is inside what is
copied. -/
theorem patches_inside (hprepared : prepare env whole base page host = .ok p)
    (hspans : p.Spans base) (hall : (p.located whole).2 = true)
    (hfits : ∀ s ∈ (p.located whole).1, s.header.address base + s.copied ≤ p.spanEnd)
    (hshort : ¬ ∃ s ∈ (p.located whole).1, s.header.executable = true ∧
      s.header.filesz < s.data.length) :
    ∀ w ∈ p.rewrite.patches, ∀ x, w.Reaches x → p.spanBase ≤ x ∧ x < p.spanEnd := by
  obtain ⟨-, hcode, -, hrewrite, -, -⟩ := prepare_ok hprepared
  have hword := hspans.word
  have hroom := hspans.room
  have hstart : ∀ entry ∈ p.code, entry.2 < bound := by
    intro entry hentry
    obtain ⟨index, ph, hmem, -, -, haddress⟩ := mem_codeOf hcode hentry
    have hseg := hspans.segment _ hmem
    rw [haddress]
    dsimp only at hseg
    omega
  intro w hw x hx
  rw [hrewrite] at hw
  obtain ⟨entry, hentry, pos, hat, hlen⟩ := plan_onCode _ _ hstart _ _ w hw
  obtain ⟨index, ph, hmem, hexec, hdata, haddress⟩ := mem_codeOf hcode hentry
  have hs := located_mem hall hmem hdata
  have hseg := hspans.segment _ hmem
  have hcopied := hfits _ hs
  have hdataLen : entry.1.length ≤ ph.filesz := by
    by_contra hlong
    exact hshort ⟨_, hs, hexec, by simpa using hlong⟩
  unfold Segment.copied at hcopied
  dsimp only [Option.getD_some] at hcopied hseg
  obtain ⟨hxlow, hxhigh⟩ := hx
  have hinside : entry.2 + pos < bound := by omega
  rw [hat, Nat.mod_eq_of_lt hinside] at hxlow hxhigh
  omega

theorem apply_segment (hspans : p.Spans base) {s : Segment} (hs : s ∈ (p.located whole).1)
    {k : Nat} (hk : k < s.header.memsz) (hpatched : ¬ p.Patched (base + s.header.vaddr + k))
    (memory : Nat → Byte) :
    ∃ b, lastByte? env.fill base (p.located whole).1 (base + s.header.vaddr + k) = some b ∧
      apply memory
        ((p.located whole).1.flatMap (fun s => segmentWrites env.fill s.header base s.data) ++
          (p.rewrite.patches ++ [⟨p.roomAt, p.rewrite.room⟩])) (base + s.header.vaddr + k) = b := by
  obtain ⟨haddress, hlow, hmem⟩ := segment_spans hspans hs
  have hsome : (lastByte? env.fill base (p.located whole).1 (base + s.header.vaddr + k)).isSome :=
    lastByte?_isSome.mpr ⟨s, hs, byte?_isSome.mpr (by omega)⟩
  obtain ⟨b, hb⟩ := Option.isSome_iff_exists.mp hsome
  have hlater : last? (p.rewrite.patches ++ [⟨p.roomAt, p.rewrite.room⟩])
      (base + s.header.vaddr + k) = none := by
    apply last?_eq_none
    intro w hw hreach
    rcases List.mem_append.mp hw with hw | hw
    · exact hpatched ⟨w, hw, hreach⟩
    · rw [List.mem_singleton.mp hw] at hreach
      have hroomAt : p.roomAt ≤ base + s.header.vaddr + k := hreach.1
      omega
  refine ⟨b, hb, ?_⟩
  rw [apply_eq, last?_append, hlater, Option.none_or, last?_segments (segment_word hspans), hb]
  rfl

theorem faithful_of_trusted (hspans : p.Spans base) (hprepared : prepare env whole base page host = .ok p)
    (hreserved : p.Reserved env) (h : Trusted env whole base p) :
    Faithful env whole base page host := by
  obtain ⟨hspan, hwrites, hok⟩ := place_reserved whole base hreserved
  have hplace : placeFor env whole base page host = p.place env whole base := by
    unfold placeFor
    rw [hprepared]
  constructor
  · intro w hw x hx
    rw [hplace] at hw ⊢
    refine ⟨_, _, hspan, ?_⟩
    rw [hwrites] at hw
    rcases List.mem_append.mp hw with hw | hw
    · exact (segments_inside_iff env hspans).mpr h.fits w hw x hx
    · by_cases hall : (p.located whole).2 = true
      · rw [if_pos hall] at hw
        rcases List.mem_append.mp hw with hw | hw
        · by_cases hlong : ∃ s ∈ (p.located whole).1, s.header.executable = true ∧
              s.header.filesz < s.data.length
          · exact h.patches hall hlong w hw x hx
          · exact patches_inside hprepared hspans hall h.fits hlong w hw x hx
        · rw [List.mem_singleton.mp hw] at hx
          obtain ⟨hlow, hhigh⟩ : p.roomAt ≤ x ∧ x < p.roomAt + p.rewrite.room.length := hx
          have hstart := hspans.start
          have hroom := hspans.room
          unfold Prepared.spanEnd at hroom
          omega
      · rw [if_neg hall] at hw
        cases hw
  · intro image himage q headers hq hheaders index ph hget hloads data hdata k hk hpatched memory
    rw [hplace] at himage ⊢
    rw [hprepared] at hq
    cases hq
    have hall := hok.mp ⟨image, himage⟩
    obtain ⟨headers', -, -, hheaders', hloadable, -⟩ := layout_ok (prepare_ok hprepared).1
    rw [hheaders] at hheaders'
    cases hheaders'
    have hmem : (index, ph) ∈ p.loadable := by
      rw [hloadable]
      exact mem_loadable.mpr ⟨hget, hloads⟩
    have hs := located_mem hall hmem hdata
    obtain ⟨b, hlast, happly⟩ := apply_segment hspans hs hk hpatched memory
    have hagrees := h.agrees hall _ hs k hk hpatched
    rw [hlast] at hagrees
    rw [hwrites, if_pos hall, happly]
    exact Option.some.inj hagrees

theorem trusted_of_faithful (hspans : p.Spans base) (hprepared : prepare env whole base page host = .ok p)
    (hreserved : p.Reserved env) (h : Faithful env whole base page host) :
    Trusted env whole base p := by
  obtain ⟨hspan, hwrites, hok⟩ := place_reserved whole base hreserved
  have hplace : placeFor env whole base page host = p.place env whole base := by
    unfold placeFor
    rw [hprepared]
  have hinside : ∀ w ∈ (p.place env whole base).writes, ∀ x, w.Reaches x →
      p.spanBase ≤ x ∧ x < p.spanEnd := by
    intro w hw x hx
    obtain ⟨start, len, hspan', hin⟩ := h.inside w (by rw [hplace]; exact hw) x hx
    rw [hplace, hspan] at hspan'
    cases hspan'
    exact hin
  rw [hwrites] at hinside
  constructor
  · exact (segments_inside_iff env hspans).mp
      (fun w hw => hinside w (List.mem_append_left _ hw))
  · intro hall _ w hw
    apply hinside w
    rw [if_pos hall]
    exact List.mem_append_right _ (List.mem_append_left _ hw)
  · intro hall s hs k hk hpatched
    obtain ⟨index, data, hmem, hdata, hsdata⟩ := mem_located hs
    obtain ⟨headers, -, -, hheaders, hloadable, -⟩ := layout_ok (prepare_ok hprepared).1
    rw [hloadable] at hmem
    obtain ⟨hget, hloads⟩ := mem_loadable.mp hmem
    obtain ⟨image, himage⟩ := hok.mpr hall
    obtain ⟨b, hlast, happly⟩ := apply_segment hspans hs hk hpatched (fun _ => 0)
    have hcontents := h.contents image (by rw [hplace]; exact himage) p headers hprepared hheaders
      index s.header hget hloads data hdata k hk hpatched (fun _ => 0)
    rw [hplace, hwrites, if_pos hall, happly] at hcontents
    rw [hlast, hcontents, hsdata]

end

/-- Loading is faithful exactly when the span is refused or the container is one that loading
may trust. The host is one that reserves no range past the last address. -/
theorem placeFor_faithful_iff (env : Env) (whole : List Byte) (base page : Nat) (host : Host)
    (hpage : 0 < page)
    (hgrant : ∀ start len, env.grant start len = .ok () → start + len < bound) :
    Faithful env whole base page host ↔
      ∀ p, prepare env whole base page host = .ok p → p.Reserved env → Trusted env whole base p := by
  constructor
  · intro h p hp hreserved
    exact trusted_of_faithful (spans_of_reserved hpage hgrant hp hreserved) hp hreserved h
  · intro h
    cases hp : prepare env whole base page host with
    | error e =>
        have hplace : placeFor env whole base page host = ⟨none, [], .error e⟩ := by
          unfold placeFor
          rw [hp]
        constructor
        · rw [hplace]
          intro w hw
          cases hw
        · rw [hplace]
          intro image himage
          cases himage
    | ok p =>
        by_cases hreserved : p.Reserved env
        · exact faithful_of_trusted (spans_of_reserved hpage hgrant hp hreserved) hp hreserved
            (h p hp hreserved)
        · obtain ⟨hwrites, hresult⟩ := place_refused whole base hreserved
          have hplace : placeFor env whole base page host = p.place env whole base := by
            unfold placeFor
            rw [hp]
          constructor
          · rw [hplace, hwrites]
            intro w hw
            cases hw
          · rw [hplace]
            exact fun image himage => absurd himage (hresult image)

/-! ## A container that holds more for a segment than its memory -/

/-- A host that lacks nothing and reserves what fits below the last address. -/
def plainHost : Env where
  granularity := 4096
  fill := 0
  detected := .FULL
  decoder :=
    { decode := fun _ => ⟨.other, 0, fun _ => .other, 0, 0, 0, 0, 1⟩
      len_pos := fun _ => Nat.one_pos
      len_le := fun _ h => List.length_pos_of_ne_nil h }
  grant := fun start len => if start + len < bound then .ok () else .error (.hostRefused "")

theorem plainHost_grant :
    ∀ start len, plainHost.grant start len = .ok () → start + len < bound := by
  intro start len h
  by_contra hpast
  have hrefused : plainHost.grant start len = .error (.hostRefused "") := if_neg hpast
  rw [hrefused] at h
  cases h

def leBytes : Nat → Nat → List Byte
  | 0, _ => []
  | n + 1, value => UInt8.ofNat value :: leBytes n (value / 256)

/-- A bare image with one loadable segment, that starts at the last byte of its first page and
takes its bytes from the start of the file. -/
def oneSegment (filesz memsz : Nat) : List Byte :=
  ELF_MAGIC ++ [2, 1] ++ List.replicate 18 0 ++ leBytes 8 0 ++ leBytes 8 64 ++ List.replicate 14 0 ++
    leBytes 2 56 ++ leBytes 2 1 ++ List.replicate 6 0 ++
    leBytes 4 PT_LOAD ++ leBytes 4 4 ++ leBytes 8 0 ++ leBytes 8 0xFFF ++ leBytes 8 0 ++
    leBytes 8 filesz ++ leBytes 8 memsz ++ leBytes 8 0

/-- Two bytes in a segment of one: the second is written past the page reserved for it. -/
theorem second_byte_written_past_span :
    ¬ Faithful plainHost (oneSegment 2 1) 0x10000 4096 .FULL := by
  intro h
  have hspan : (placeFor plainHost (oneSegment 2 1) 0x10000 4096 .FULL).span =
      some (0x10000, 4096) := by
    decide +kernel
  have hwrites : (placeFor plainHost (oneSegment 2 1) 0x10000 4096 .FULL).writes =
      [⟨0x10FFF, [0x7f, 0x45]⟩, ⟨0x11000, []⟩] := by
    decide +kernel
  obtain ⟨start, len, hsome, -, hlt⟩ := h.inside ⟨0x10FFF, [0x7f, 0x45]⟩
    (by rw [hwrites]; exact List.mem_cons_self) 0x11000 ⟨by decide, by decide⟩
  rw [hspan] at hsome
  cases hsome
  omega

theorem faithful_one_byte :
    Faithful plainHost (oneSegment 1 1) 0x10000 4096 .FULL ↔
      ∀ p, prepare plainHost (oneSegment 1 1) 0x10000 4096 .FULL = .ok p →
        p.Reserved plainHost → Trusted plainHost (oneSegment 1 1) 0x10000 p :=
  placeFor_faithful_iff plainHost (oneSegment 1 1) 0x10000 4096 .FULL (by decide) plainHost_grant

end Orbistoun.Loader
