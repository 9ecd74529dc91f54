import Orbistoun.Lib.Nearest
import Orbistoun.Lib.SwapRemove
import Orbistoun.Mem.Mappings.Registry

/-! # The guest's address space

The regions `AddressSpace` records, by base. A lookup reads one region, the last to start
before or at an address; that it answers as reading them all would follows from the
regions being disjoint in every state a run of calls reaches, whatever the host grants.
-/

namespace Orbistoun.Mem

open Std (TreeMap)
open Orbistoun.Lib
open Orbistoun.Lib.Nearest (lastLE lastLT)
open Orbistoun.Lib.U64 (saturatingAdd bound)

namespace Space

def guestPageSize : Nat := 4096

def directMemoryAlign : Nat := 16 * 1024

structure Protection where
  read : Bool
  write : Bool
  execute : Bool
  deriving DecidableEq, Repr

inductive MemError where
  | conflict (base len : Nat)
  | misaligned (what : String) (align value : Nat)
  | hostRefused (reason : String)
  deriving DecidableEq, Repr

structure Region where
  base : Nat
  len : Nat
  protection : Protection
  deriving DecidableEq, Repr

/-- Where a region ends, as the lookups compute it. -/
def Region.stop (r : Region) : Nat := saturatingAdd r.base r.len

/-- What the run report keeps of reservations that failed. -/
structure Failures where
  base : Nat
  len : Nat
  kind : Nat
  count : Nat
  holderBase : Nat
  holderLen : Nat
  firstBase : Nat
  deriving DecidableEq, Repr

def failKind : MemError → Nat
  | .conflict .. => 1
  | .misaligned .. => 2
  | .hostRefused _ => 3

/-- The regions by base, the host memory held for them, the failures noted, and the
registry of mappings every reservation is recorded with. -/
structure AddressSpace where
  regions : TreeMap Nat Region
  held : List (Nat × Nat)
  failures : Failures
  registry : Mappings.Registry

namespace AddressSpace

def new : AddressSpace := ⟨∅, [], ⟨0, 0, 0, 0, 0, 0, 0⟩, .empty⟩

def regionList (s : AddressSpace) : List Region := s.regions.toList.map Prod.snd

def regionAt (s : AddressSpace) (address : Nat) : Option Region :=
  ((lastLE s.regions address).map Prod.snd).filter (fun r => address < r.stop)

def holderOf (s : AddressSpace) (base len : Nat) : Option Region :=
  ((lastLT s.regions (saturatingAdd base len)).map Prod.snd).filter (fun r => base < r.stop)

def owns (s : AddressSpace) (base len : Nat) : Bool :=
  ((lastLE s.regions base).map Prod.snd).any (fun r => saturatingAdd base len ≤ r.stop)

def noteReserveFailure (s : AddressSpace) (base len : Nat) (error : MemError)
    (holder : Option Region) : AddressSpace :=
  { s with failures :=
    { base := base
      len := len
      kind := failKind error
      count := s.failures.count + 1
      holderBase := (holder.map Region.base).getD 0
      holderLen := (holder.map Region.len).getD 0
      firstBase := if s.failures.count = 0 then base else s.failures.firstBase } }

def validate (s : AddressSpace) (base len : Nat) (direct : Bool) : Except MemError Unit :=
  if len = 0 ∨ len % guestPageSize ≠ 0 then
    .error (.misaligned "length" guestPageSize len)
  else
    let align := if direct then directMemoryAlign else guestPageSize
    if base % align ≠ 0 then .error (.misaligned "base address" align base)
    else if (s.holderOf base len).isSome then .error (.conflict base len)
    else .ok ()

/-- Reserves `len` bytes at exactly `base`; `host` is what the host answers when it is
asked. -/
def reserve (s : AddressSpace) (base len : Nat) (protection : Protection)
    (host : Except MemError Unit) : Except MemError Region × AddressSpace :=
  match s.validate base len false with
  | .error e => (.error e, s.noteReserveFailure base len e (s.holderOf base len))
  | .ok () =>
      match host with
      | .error e => (.error e, s.noteReserveFailure base len e none)
      | .ok () =>
          let region : Region := ⟨base, len, protection⟩
          (.ok region,
            { s with
              regions := s.regions.insert base region
              held := s.held ++ [(base, len)]
              registry := Mappings.reserved s.registry base len protection.read })

/-- The reservation at `base` dropped, which returns its host memory. -/
def dropHeld (held : List (Nat × Nat)) (base : Nat) : List (Nat × Nat) :=
  match held.findIdx? (fun r => r.1 == base) with
  | none => held
  | some index => swapRemove held index

def release (s : AddressSpace) (base len : Nat) : Bool × AddressSpace :=
  match s.regions[base]? with
  | none => (false, s)
  | some r =>
      if r.len ≠ len then (false, s)
      else
        (true,
          { s with
            regions := s.regions.erase base
            registry := Mappings.released s.registry base
            held := dropHeld s.held base })

/-- A number as it is written in a refusal. -/
def hex (n : Nat) : String := "0x" ++ String.ofList (Nat.toDigits 16 n)

def protect (s : AddressSpace) (base len : Nat) (protection : Protection)
    (host : Except MemError Unit) : Except MemError Unit × AddressSpace :=
  if !s.owns base len then
    let stop := saturatingAdd base len
    let e := MemError.hostRefused
      (hex base ++ ".." ++ hex stop ++ " is not inside any region this address space owns")
    (.error e, s.noteReserveFailure base len e (s.holderOf base len))
  else
    match host with
    | .error e => (.error e, s.noteReserveFailure base len e none)
    | .ok () =>
        (.ok (), { s with
          registry := Mappings.protected_ s.registry base len protection.read })

end AddressSpace

/-! ## Calls -/

inductive Call where
  | reserve (base len : Nat) (protection : Protection) (host : Except MemError Unit)
  | release (base len : Nat)
  | protect (base len : Nat) (protection : Protection) (host : Except MemError Unit)

/-- Bases and lengths are words. -/
def Call.Word : Call → Prop
  | .reserve base len _ _ => base < bound ∧ len < bound
  | .release base len => base < bound ∧ len < bound
  | .protect base len _ _ => base < bound ∧ len < bound

/-- The host grants no range that runs past the last address. -/
def Call.Granted : Call → Prop
  | .reserve base len _ host => host = .ok () → base + len < bound
  | _ => True

/-- Whether a call was refused. -/
inductive Answer where
  | done
  | refused
  deriving DecidableEq, Repr

namespace AddressSpace

def answerOf {ε α : Type} : Except ε α → Answer
  | .ok _ => .done
  | .error _ => .refused

def step (s : AddressSpace) : Call → AddressSpace × List Answer
  | .reserve base len protection host =>
      let (answer, s) := s.reserve base len protection host
      (s, [answerOf answer])
  | .release base len =>
      let (answer, s) := s.release base len
      (s, [if answer then .done else .refused])
  | .protect base len protection host =>
      let (answer, s) := s.protect base len protection host
      (s, [answerOf answer])

def space : Machine AddressSpace Call Answer := ⟨step⟩

/-! ## Lookups -/

/-- Recorded regions are whole pages under their own bases, and share no byte. -/
structure Sound (s : AddressSpace) : Prop where
  keyed : ∀ {k : Nat} {r : Region}, s.regions[k]? = some r → r.base = k
  paged : ∀ {k : Nat} {r : Region}, s.regions[k]? = some r →
    r.base % guestPageSize = 0 ∧ r.len % guestPageSize = 0 ∧ 0 < r.len ∧ r.base < bound
  apart : ∀ {k k' : Nat} {r r' : Region}, s.regions[k]? = some r → s.regions[k']? = some r' →
    k < k' → k + r.len ≤ k'

variable {s : AddressSpace}

theorem mem_regionList {r : Region} : r ∈ s.regionList ↔
    ∃ k : Nat, s.regions[k]? = some r := by
  rw [regionList, List.mem_map]
  constructor
  · rintro ⟨⟨k, r'⟩, hmem, rfl⟩
    exact ⟨k, Nearest.mem_toList.mp hmem⟩
  · rintro ⟨k, hk⟩
    exact ⟨(k, r), Nearest.mem_toList.mpr hk, rfl⟩

theorem Sound.base_lt_stop (h : Sound s) {k : Nat} {r : Region} (hr : s.regions[k]? = some r) :
    r.base < r.stop := by
  obtain ⟨hbase, -, hlen, hbound⟩ := h.paged hr
  unfold Region.stop saturatingAdd
  simp only [guestPageSize, bound] at *
  omega

/-- A region ends before the next starts, as the lookups see it. -/
theorem Sound.stop_le (h : Sound s) {k k' : Nat} {r r' : Region} (hr : s.regions[k]? = some r)
    (hr' : s.regions[k']? = some r') (hlt : k < k') : r.stop ≤ k' := by
  have happart := h.apart hr hr' hlt
  rw [← h.keyed hr] at happart
  exact le_trans (min_le_left _ _) happart

theorem Sound.holder_unique (h : Sound s) {k k' x : Nat} {r r' : Region}
    (hr : s.regions[k]? = some r) (hr' : s.regions[k']? = some r') (hx : r.base ≤ x ∧ x < r.stop)
    (hx' : r'.base ≤ x ∧ x < r'.stop) : k = k' := by
  have hk := h.keyed hr
  have hk' := h.keyed hr'
  rcases Nat.lt_trichotomy k k' with hlt | heq | hgt
  · have := h.stop_le hr hr' hlt
    omega
  · exact heq
  · have := h.stop_le hr' hr hgt
    omega

theorem regionAt_eq_some_iff (h : Sound s) {x : Nat} {r : Region} :
    s.regionAt x = some r ↔ r ∈ s.regionList ∧ r.base ≤ x ∧ x < r.stop := by
  rw [mem_regionList]
  unfold regionAt
  constructor
  · intro hat
    obtain ⟨hlast, hlt⟩ := Option.filter_eq_some_iff.mp hat
    obtain ⟨⟨k, r'⟩, hentry, rfl⟩ := Option.map_eq_some_iff.mp hlast
    obtain ⟨hk, hle⟩ := Nearest.last_mem hentry
    simp only [decide_eq_true_eq] at hle hlt
    exact ⟨⟨k, hk⟩, by rw [h.keyed hk]; exact hle, hlt⟩
  · rintro ⟨⟨k, hk⟩, hle, hlt⟩
    have hkey := h.keyed hk
    have hlast : lastLE s.regions x = some (k, r) := by
      refine Nearest.last_eq_some hk (by simpa [hkey] using hle) (fun k' r' hk' hp => ?_)
      simp only [decide_eq_true_eq] at hp
      by_contra hgt
      have := h.stop_le hk hk' (by omega)
      omega
    rw [hlast]
    simpa using hlt

theorem regionAt_eq_scan (h : Sound s) (x : Nat) :
    s.regionAt x = s.regionList.find? (fun r => r.base ≤ x && x < r.stop) := by
  cases hfind : s.regionList.find? (fun r => r.base ≤ x && x < r.stop) with
  | some r =>
      have hp := List.find?_some hfind
      simp only [Bool.and_eq_true, decide_eq_true_eq] at hp
      exact (regionAt_eq_some_iff h).mpr ⟨List.mem_of_find?_eq_some hfind, hp⟩
  | none =>
      cases hat : s.regionAt x with
      | none => rfl
      | some r =>
          obtain ⟨hmem, hle, hlt⟩ := (regionAt_eq_some_iff h).mp hat
          have hnot := List.find?_eq_none.mp hfind r hmem
          simp [hle, hlt] at hnot

/-- A range lies in one region exactly when reading every region finds it to. -/
theorem owns_eq_scan (h : Sound s) (base len : Nat) : s.owns base len =
    s.regionList.any (fun r => r.base ≤ base && saturatingAdd base len ≤ r.stop) := by
  rw [Bool.eq_iff_iff, List.any_eq_true]
  unfold owns
  constructor
  · intro howns
    cases hlast : lastLE s.regions base with
    | none =>
        rw [hlast] at howns
        cases howns
    | some e =>
        obtain ⟨k, r⟩ := e
        obtain ⟨hk, hle⟩ := Nearest.last_mem hlast
        rw [hlast] at howns
        simp only [Option.map_some, Option.any_some, decide_eq_true_eq] at howns hle
        refine ⟨r, mem_regionList.mpr ⟨k, hk⟩, ?_⟩
        simp only [h.keyed hk, Bool.and_eq_true, decide_eq_true_eq]
        exact ⟨hle, howns⟩
  · rintro ⟨r, hmem, hin⟩
    obtain ⟨k, hk⟩ := mem_regionList.mp hmem
    simp only [Bool.and_eq_true, decide_eq_true_eq, h.keyed hk] at hin
    cases hlast : lastLE s.regions base with
    | none =>
        have hnot := Nearest.not_of_last_none hlast hk
        simp [hin.1] at hnot
    | some e =>
        obtain ⟨k', r'⟩ := e
        have hle : k ≤ k' := Nearest.le_last hlast hk (by simpa using hin.1)
        obtain ⟨hk', hle'⟩ := Nearest.last_mem hlast
        simp only [decide_eq_true_eq] at hle'
        simp only [Option.map_some, Option.any_some, decide_eq_true_eq]
        by_cases heq : k = k'
        · subst heq
          rw [hk] at hk'
          cases hk'
          exact hin.2
        · -- an earlier region reaches the range only when the range is empty at its end
          have hstop := h.stop_le hk hk' (by omega)
          have hpos := h.base_lt_stop hk'
          rw [h.keyed hk'] at hpos
          omega

theorem holderOf_eq_some (h : Sound s) {base len : Nat} {r : Region}
    (hr : s.holderOf base len = some r) :
    r ∈ s.regionList ∧ r.base < saturatingAdd base len ∧ base < r.stop ∧
      ∀ r' ∈ s.regionList, r'.base < saturatingAdd base len → r'.base ≤ r.base := by
  obtain ⟨hlast, hlt⟩ := Option.filter_eq_some_iff.mp hr
  obtain ⟨⟨k, r'⟩, hentry, rfl⟩ := Option.map_eq_some_iff.mp hlast
  obtain ⟨hk, hle⟩ := Nearest.last_mem hentry
  simp only [decide_eq_true_eq] at hle hlt
  have hkey := h.keyed hk
  refine ⟨mem_regionList.mpr ⟨k, hk⟩, by rw [hkey]; exact hle, hlt, fun r'' hmem hbase => ?_⟩
  obtain ⟨k'', hk''⟩ := mem_regionList.mp hmem
  rw [h.keyed hk''] at hbase ⊢
  rw [hkey]
  exact Nearest.le_last hentry hk'' (by simpa using hbase)

theorem holderOf_eq_none (h : Sound s) {base len : Nat} (hnone : s.holderOf base len = none)
    {r : Region} (hmem : r ∈ s.regionList) :
    saturatingAdd base len ≤ r.base ∨ r.stop ≤ base := by
  obtain ⟨k, hk⟩ := mem_regionList.mp hmem
  have hkey := h.keyed hk
  by_contra hover
  simp only [not_or, Nat.not_le] at hover
  cases hlast : lastLT s.regions (saturatingAdd base len) with
  | none =>
      have hnot := Nearest.not_of_last_none hlast hk
      simp only [decide_eq_false_iff_not] at hnot
      omega
  | some e =>
      obtain ⟨k', r'⟩ := e
      have hle : k ≤ k' := Nearest.le_last hlast hk (by simpa [← hkey] using hover.1)
      obtain ⟨hk', -⟩ := Nearest.last_mem hlast
      have hreach : base < r'.stop := by
        by_cases heq : k = k'
        · subst heq
          rw [hk] at hk'
          cases hk'
          exact hover.2
        · have hstop := h.stop_le hk hk' (by omega)
          have hpos := h.base_lt_stop hk'
          rw [h.keyed hk'] at hpos
          omega
      unfold holderOf at hnone
      rw [hlast] at hnone
      simp at hnone
      omega

/-- The region in the way is the last of those reading every region finds in the way. -/
theorem holderOf_eq_scan (h : Sound s) (base len : Nat) : s.holderOf base len =
    (s.regionList.filter (fun r => r.base < saturatingAdd base len && base < r.stop)).getLast? := by
  have hsorted : s.regionList.Pairwise (fun r r' => r.base < r'.base) := by
    rw [regionList, List.pairwise_map]
    refine (Nearest.toList_sorted s.regions).imp_of_mem (fun {e e'} he he' hlt => ?_)
    rw [h.keyed (Nearest.mem_toList.mp he), h.keyed (Nearest.mem_toList.mp he')]
    exact hlt
  cases hholder : s.holderOf base len with
  | none =>
      rw [eq_comm, List.getLast?_eq_none_iff, List.filter_eq_nil_iff]
      intro r hmem
      simp only [Bool.and_eq_true, decide_eq_true_eq, not_and, Nat.not_lt]
      intro hbase
      exact (holderOf_eq_none h hholder hmem).resolve_left (Nat.not_le.mpr hbase)
  | some r =>
      obtain ⟨hmem, hbase, hstop, hmax⟩ := holderOf_eq_some h hholder
      generalize hfound :
        s.regionList.filter (fun r => r.base < saturatingAdd base len && base < r.stop) = found
      have hin : r ∈ found := by
        rw [← hfound, List.mem_filter]
        simp [hmem, hbase, hstop]
      rcases List.eq_nil_or_concat found with rfl | ⟨front, r', rfl⟩
      · cases hin
      · rw [List.concat_eq_append] at hin hfound ⊢
        rw [List.getLast?_concat]
        have hr' : r' ∈ front ++ [r'] := by simp
        rw [← hfound, List.mem_filter] at hr'
        simp only [Bool.and_eq_true, decide_eq_true_eq] at hr'
        have hle := hmax r' hr'.1 hr'.2.1
        rcases List.mem_append.mp hin with hfront | hlast
        · have hpair := hfound ▸ hsorted.filter _
          have hlt := (List.pairwise_append.mp hpair).2.2 r hfront r' List.mem_cons_self
          omega
        · rw [List.mem_singleton.mp hlast]

/-! ## Runs -/

theorem validate_ok {base len : Nat} (h : s.validate base len false = .ok ()) :
    len % guestPageSize = 0 ∧ 0 < len ∧ base % guestPageSize = 0 ∧ s.holderOf base len = none := by
  unfold validate at h
  split at h
  · cases h
  · next hlen =>
    simp only [Bool.false_eq_true, if_false] at h
    split at h
    · cases h
    · next hbase =>
      split at h
      · cases h
      · next hholder =>
        simp only [not_or, not_not] at hlen hbase
        exact ⟨hlen.2, Nat.pos_of_ne_zero hlen.1, hbase, by simpa using hholder⟩

/-- A page range that meets no recorded region may be recorded. -/
theorem Sound.insert (h : Sound s) {base len : Nat} {protection : Protection}
    (hvalid : s.validate base len false = .ok ()) (hword : base < bound)
    {s' : AddressSpace} (hs' : s'.regions = s.regions.insert base ⟨base, len, protection⟩) :
    Sound s' := by
  obtain ⟨hlen, hpos, hbase, hholder⟩ := validate_ok hvalid
  have hget : ∀ k : Nat, s'.regions[k]? =
      if base = k then some ⟨base, len, protection⟩ else s.regions[k]? := by
    intro k
    simp only [hs', TreeMap.getElem?_insert, Nat.compare_eq_eq]
  have hfree : ∀ {k : Nat} {r : Region}, s.regions[k]? = some r →
      saturatingAdd base len ≤ k ∨ r.stop ≤ base := by
    intro k r hr
    rw [← h.keyed hr]
    exact holderOf_eq_none h hholder (mem_regionList.mpr ⟨k, hr⟩)
  have hbelow : base < saturatingAdd base len := by
    simp only [saturatingAdd, guestPageSize, bound] at *
    omega
  refine ⟨fun {k r} hr => ?_, fun {k r} hr => ?_, fun {k k' r r'} hr hr' hlt => ?_⟩
  · rw [hget] at hr
    split at hr
    · next heq =>
      cases hr
      exact heq
    · exact h.keyed hr
  · rw [hget] at hr
    split at hr
    · cases hr
      exact ⟨hbase, hlen, hpos, hword⟩
    · exact h.paged hr
  · rw [hget] at hr hr'
    split at hr
    · next heq =>
      subst heq
      cases hr
      rw [if_neg (by omega)] at hr'
      obtain ⟨hpaged, -, -, hbound⟩ := h.paged hr'
      have hstop := h.base_lt_stop hr'
      rw [h.keyed hr'] at hpaged hbound hstop
      have hmeet := hfree hr'
      simp only [saturatingAdd, guestPageSize, bound] at *
      omega
    · split at hr'
      · next heq =>
        subst heq
        cases hr'
        have hkey := h.keyed hr
        have hmeet := hfree hr
        simp only [Region.stop, saturatingAdd, guestPageSize, bound, hkey] at *
        omega
      · exact h.apart hr hr' hlt

/-- A range is reserved where no region starts, or the regions stay as they are. -/
theorem reserve_cases (h : Sound s) (base len : Nat) (protection : Protection)
    (host : Except MemError Unit) :
    ((∃ e, (s.reserve base len protection host).1 = .error e) ∧
        (s.reserve base len protection host).2.regions = s.regions) ∨
      (∃ r, (s.reserve base len protection host).1 = .ok r) ∧ s.regions[base]? = none ∧
        (base < bound → Sound (s.reserve base len protection host).2) ∧
        (s.reserve base len protection host).2.regions =
          s.regions.insert base ⟨base, len, protection⟩ := by
  unfold reserve
  cases hvalid : s.validate base len false with
  | error e => exact .inl ⟨⟨e, rfl⟩, rfl⟩
  | ok u =>
      cases host with
      | error e => exact .inl ⟨⟨e, rfl⟩, rfl⟩
      | ok u =>
          refine .inr ⟨⟨_, rfl⟩, ?_, fun hword => h.insert hvalid hword rfl, rfl⟩
          obtain ⟨hlen, hpos, hbase, hholder⟩ := validate_ok hvalid
          by_contra hsome
          obtain ⟨r, hr⟩ := Option.ne_none_iff_exists'.mp hsome
          have hmeet := holderOf_eq_none h hholder (mem_regionList.mpr ⟨base, hr⟩)
          have hstop := h.base_lt_stop hr
          have hword := (h.paged hr).2.2.2
          rw [h.keyed hr] at hmeet hstop hword
          simp only [saturatingAdd, guestPageSize, bound] at *
          omega

theorem protect_regions (s : AddressSpace) (base len : Nat) (protection : Protection)
    (host : Except MemError Unit) :
    (s.protect base len protection host).2.regions = s.regions := by
  unfold protect
  split
  · rfl
  · cases host <;> rfl

theorem Sound.of_regions_eq (h : Sound s) {s' : AddressSpace} (heq : s'.regions = s.regions) :
    Sound s' :=
  ⟨by rw [heq]; exact h.keyed, by rw [heq]; exact h.paged, by rw [heq]; exact h.apart⟩

theorem Sound.erase (h : Sound s) {base : Nat} {s' : AddressSpace}
    (heq : s'.regions = s.regions.erase base) : Sound s' := by
  have hsub : ∀ {k : Nat} {r : Region}, s'.regions[k]? = some r → s.regions[k]? = some r := by
    intro k r hr
    simp only [heq, TreeMap.getElem?_erase, Nat.compare_eq_eq] at hr
    split at hr
    · cases hr
    · exact hr
  exact ⟨fun hr => h.keyed (hsub hr), fun hr => h.paged (hsub hr),
    fun hr hr' => h.apart (hsub hr) (hsub hr')⟩

theorem release_cases (s : AddressSpace) (base len : Nat) : s.release base len = (false, s) ∨
    s.release base len = (true, { s with
      regions := s.regions.erase base
      registry := Mappings.released s.registry base
      held := dropHeld s.held base }) := by
  unfold release
  split
  · exact .inl rfl
  · split
    · exact .inl rfl
    · exact .inr rfl

/-- What a call can do to the recorded regions: record a valid range the host granted,
drop one, or nothing; refused, it does nothing. -/
theorem step_cases (s : AddressSpace) (c : Call) :
    (∃ base len protection, c = .reserve base len protection (.ok ()) ∧
      s.validate base len false = .ok () ∧ .refused ∉ (step s c).2 ∧
      (step s c).1.regions = s.regions.insert base ⟨base, len, protection⟩) ∨
    (∃ base len, c = .release base len ∧ .refused ∉ (step s c).2 ∧
      (step s c).1.regions = s.regions.erase base) ∨
    (step s c).1.regions = s.regions := by
  cases c with
  | reserve base len protection host =>
      simp only [step, reserve]
      cases hvalid : s.validate base len false with
      | error e => exact .inr (.inr rfl)
      | ok u =>
          cases host with
          | error e => exact .inr (.inr rfl)
          | ok u => exact .inl ⟨base, len, protection, rfl, hvalid, by simp [answerOf], rfl⟩
  | release base len =>
      simp only [step]
      obtain heq | heq := release_cases s base len
      · rw [heq]
        exact .inr (.inr rfl)
      · rw [heq]
        exact .inr (.inl ⟨base, len, rfl, by simp, rfl⟩)
  | protect base len protection host =>
      exact .inr (.inr (protect_regions s base len protection host))

theorem refused_unchanged {c : Call} (h : .refused ∈ (step s c).2) :
    (step s c).1.regions = s.regions := by
  obtain ⟨base, len, protection, -, -, hnot, -⟩ | ⟨base, len, -, hnot, -⟩ | heq := step_cases s c
  · exact absurd h hnot
  · exact absurd h hnot
  · exact heq

theorem Sound.step (h : Sound s) {c : Call} (hw : c.Word) : Sound (step s c).1 := by
  obtain ⟨base, len, protection, rfl, hvalid, -, hs'⟩ | ⟨base, len, rfl, -, hs'⟩ | heq :=
    step_cases s c
  · exact h.insert hvalid hw.1 hs'
  · exact h.erase hs'
  · exact h.of_regions_eq heq

theorem sound_new : Sound new :=
  ⟨by simp [new], by simp [new], by simp [new]⟩

theorem run_sound {calls : List Call} (hw : ∀ c ∈ calls, c.Word) :
    Sound (space.after new calls) :=
  Machine.after_inv_of_meets (m := space) (fun _ _ h hc => h.step hc) sound_new
    (Machine.meets_of_mem hw new)

/-- Where the host grants nothing past the last address, a region ends where its bytes
do. -/
theorem run_exact {calls : List Call} (hg : ∀ c ∈ calls, c.Granted) :
    ∀ r ∈ (space.after new calls).regionList, r.stop = r.base + r.len := by
  have hinv : ∀ (k : Nat) (r : Region), (space.after new calls).regions[k]? = some r →
      r.base + r.len < bound := by
    refine Machine.after_inv_of_meets (m := space)
      (I := fun s => ∀ (k : Nat) (r : Region), s.regions[k]? = some r → r.base + r.len < bound)
      (fun s c h hc k r hr => ?_) (by simp [new]) (Machine.meets_of_mem hg new)
    obtain ⟨base, len, protection, rfl, -, -, hs'⟩ | ⟨base, len, -, -, hs'⟩ | heq :=
      step_cases s c
    · simp only [space, hs', TreeMap.getElem?_insert, Nat.compare_eq_eq] at hr
      split at hr
      · cases hr
        exact hc rfl
      · exact h k r hr
    · simp only [space, hs', TreeMap.getElem?_erase, Nat.compare_eq_eq] at hr
      split at hr
      · cases hr
      · exact h k r hr
    · exact h k r (by simpa only [space, heq] using hr)
  intro r hmem
  obtain ⟨k, hk⟩ := mem_regionList.mp hmem
  have hlt := hinv k r hk
  exact min_eq_left (Nat.le_sub_one_of_lt hlt)

/-- After any run of calls, the recorded regions are whole pages in address order that
share no byte, each lookup answers as reading every region does, and a refused call
leaves them as they were. A region's end saturates; it is where its bytes end unless the
host granted the last page of all. -/
theorem regions_apart_and_lookups_agree {calls : List Call} (hw : ∀ c ∈ calls, c.Word) :
    let s := space.after new calls
    s.regionList.Pairwise (fun r r' => r.base + r.len ≤ r'.base) ∧
      (∀ r ∈ s.regionList, r.base % guestPageSize = 0 ∧ r.len % guestPageSize = 0 ∧ 0 < r.len) ∧
      (∀ x, s.regionAt x = s.regionList.find? (fun r => r.base ≤ x && x < r.stop)) ∧
      (∀ base len, s.holderOf base len = (s.regionList.filter (fun r =>
        r.base < saturatingAdd base len && base < r.stop)).getLast?) ∧
      (∀ base len, s.owns base len =
        s.regionList.any (fun r => r.base ≤ base && saturatingAdd base len ≤ r.stop)) ∧
      ((∀ c ∈ calls, c.Granted) → ∀ r ∈ s.regionList, r.stop = r.base + r.len) ∧
      ∀ c, .refused ∈ (space.step s c).2 → (space.step s c).1.regions = s.regions := by
  intro s
  have hs : Sound s := run_sound hw
  refine ⟨?_, fun r hmem => ?_, regionAt_eq_scan hs, holderOf_eq_scan hs, owns_eq_scan hs,
    run_exact, fun c => refused_unchanged⟩
  · rw [regionList, List.pairwise_map]
    refine (Nearest.toList_sorted s.regions).imp_of_mem (fun {e e'} he he' hlt => ?_)
    have hr := Nearest.mem_toList.mp he
    have hr' := Nearest.mem_toList.mp he'
    rw [hs.keyed hr, hs.keyed hr']
    exact hs.apart hr hr' hlt
  · obtain ⟨k, hk⟩ := mem_regionList.mp hmem
    obtain ⟨hbase, hlen, hpos, -⟩ := hs.paged hk
    exact ⟨hbase, hlen, hpos⟩

/-- Two pages reserved, one of them refused a second time, the whole then released. -/
theorem lookups_agree_two_pages :
    let rw : Protection := ⟨true, true, false⟩
    let s := space.after new [.reserve 0x10000 0x2000 rw (.ok ()),
      .reserve 0x11000 0x1000 rw (.ok ()), .protect 0x11000 0x1000 rw (.ok ())]
    s.regionList.length = 1 ∧
      s.regionAt 0x11fff = s.regionList.find? (fun r => r.base ≤ 0x11fff && 0x11fff < r.stop) := by
  intro rw s
  refine ⟨by decide, ?_⟩
  have hw : ∀ c ∈ [Call.reserve 0x10000 0x2000 rw (.ok ()), .reserve 0x11000 0x1000 rw (.ok ()),
      .protect 0x11000 0x1000 rw (.ok ())], c.Word := by
    simp [Call.Word, bound]
  exact (regions_apart_and_lookups_agree hw).2.2.1 0x11fff

/-! ## The registry of mappings -/

def registryOps (s : AddressSpace) : Call → List Mappings.Op
  | .reserve base len protection host =>
      match (s.reserve base len protection host).1 with
      | .ok _ => [.reserved base len protection.read]
      | .error _ => []
  | .release base len => if (s.release base len).1 then [.released base] else []
  | .protect base len protection host =>
      match (s.protect base len protection host).1 with
      | .ok _ => [.protected_ base len protection.read]
      | .error _ => []

def Mirrored (s : AddressSpace) : Prop :=
  ∀ k : Nat, s.registry.reservations[k]?.map Prod.fst = s.regions[k]?.map Region.len

theorem admitted_reserved (h : Sound s) (hm : Mirrored s) {base len : Nat} {readable : Bool}
    (hvalid : s.validate base len false = .ok ()) (hword : base < bound) :
    Mappings.Admitted s.registry (.reserved base len readable) := by
  obtain ⟨hlen, hpos, hbase, hholder⟩ := validate_ok hvalid
  constructor
  · simp only [saturatingAdd, guestPageSize, bound] at *
    omega
  · intro start held t hs
    have hmirror := hm start
    rw [hs, Option.map_some] at hmirror
    obtain ⟨r, hr, hlen'⟩ := Option.map_eq_some_iff.mp hmirror.symm
    have hmeet := holderOf_eq_none h hholder (mem_regionList.mpr ⟨start, hr⟩)
    rw [Region.stop, h.keyed hr, hlen'] at hmeet
    exact hmeet.symm

theorem step_registry (h : Sound s) (hm : Mirrored s) {c : Call} (hw : c.Word) :
    (step s c).1.registry = Mappings.registry.after s.registry (registryOps s c) ∧
      Mappings.registry.Meets Mappings.Admitted s.registry (registryOps s c) ∧
      Mirrored (step s c).1 := by
  cases c with
  | reserve base len protection host =>
      simp only [step, registryOps, reserve]
      cases hvalid : s.validate base len false with
      | error e => exact ⟨rfl, trivial, hm⟩
      | ok u =>
          cases host with
          | error e => exact ⟨rfl, trivial, hm⟩
          | ok u =>
              refine ⟨rfl, ⟨admitted_reserved h hm hvalid hw.1, trivial⟩, fun k => ?_⟩
              simp only [Mappings.getElem?_reserved, TreeMap.getElem?_insert, Nat.compare_eq_eq]
              by_cases hk : base = k
              · rw [if_pos hk, if_pos hk]
                rfl
              · rw [if_neg hk, if_neg hk]
                exact hm k
  | release base len =>
      simp only [step, registryOps]
      obtain heq | heq := release_cases s base len
      · rw [heq]
        exact ⟨rfl, trivial, hm⟩
      · rw [heq]
        refine ⟨rfl, ⟨trivial, trivial⟩, fun k => ?_⟩
        simp only [Mappings.getElem?_released, TreeMap.getElem?_erase, Nat.compare_eq_eq]
        by_cases hk : base = k
        · rw [if_pos hk, if_pos hk]
          rfl
        · rw [if_neg hk, if_neg hk]
          exact hm k
  | protect base len protection host =>
      simp only [step, registryOps, protect]
      split
      · exact ⟨rfl, trivial, hm⟩
      · cases host with
        | error e => exact ⟨rfl, trivial, hm⟩
        | ok u =>
            refine ⟨rfl, ⟨trivial, trivial⟩, fun k => ?_⟩
            simp only [Mappings.getElem?_protected, Option.map_map]
            exact hm k

theorem registry_follows {calls : List Call} (hw : ∀ c ∈ calls, c.Word) (h : Sound s)
    (hm : Mirrored s) :
    (space.after s calls).registry =
        Mappings.registry.after s.registry (space.translate registryOps s calls) ∧
      Mappings.registry.Meets Mappings.Admitted s.registry
        (space.translate registryOps s calls) := by
  induction calls generalizing s with
  | nil => exact ⟨rfl, trivial⟩
  | cons c calls ih =>
      have hc := hw c List.mem_cons_self
      obtain ⟨hreg, hadm, hm'⟩ := step_registry h hm hc
      obtain ⟨hreg', hadm'⟩ :=
        ih (fun c' hc' => hw c' (List.mem_cons_of_mem _ hc')) (h.step hc) hm'
      constructor
      · rw [Machine.after_cons, Machine.translate, Machine.after_append, ← hreg]
        exact hreg'
      · rw [Machine.translate, Machine.meets_append, ← hreg]
        exact ⟨hadm, hadm'⟩

/-- So the registry tracks what the guest may read over every run of calls that changes
the protection of no empty range inside a reservation. -/
theorem registry_tracks {calls : List Call} (hw : ∀ c ∈ calls, c.Word)
    (hspared : Mappings.registry.Meets Mappings.Spared Mappings.Registry.empty
      (space.translate registryOps new calls)) :
    Mappings.Tracks (space.translate registryOps new calls) := by
  have hmirrored : Mirrored new := fun k => by simp [new, Mappings.Registry.empty]
  exact Mappings.tracks_of_spared (registry_follows hw sound_new hmirrored).2 hspared

end AddressSpace

end Space

end Orbistoun.Mem
