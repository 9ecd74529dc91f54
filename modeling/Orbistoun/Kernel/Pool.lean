import Mathlib.Data.Finset.Sort
import Orbistoun.Kernel.Direct.Basic
import Orbistoun.Lib.MapTotal
import Orbistoun.Mem.Space

/-! # Memory pools

Physical memory is set aside by Expand, address space is reserved for it, and granules are
committed and decommitted inside a reservation. The bytes committed are counted beside the
granules of each reservation, and each change of the pool keeps the two together. The address
space is the one every other mapping of the guest is made in.
-/

namespace Orbistoun.Kernel.Pool

open Std (TreeMap)
open Orbistoun.Lib
open Orbistoun.Lib.MapTotal
open Orbistoun.Lib.Nearest (lastLE)
open Orbistoun.Lib.U64
open Orbistoun.Mem.Space (AddressSpace MemError Protection guestPageSize)

/-- The unit a pool commits and decommits in. -/
def GRANULE : Nat := 0x10000

inductive Refusal where
  | invalid
  | noMemory
  | unmeasured (arm : String)
  deriving DecidableEq, Repr

/-- One reserved range and the base of every granule committed in it. -/
structure Reservation where
  len : Nat
  committed : Finset Nat
  deriving DecidableEq

structure Pool where
  capacity : Nat
  committed : Nat
  reservations : TreeMap Nat Reservation

/-- Whether a range starts and ends on granule boundaries. -/
def granular (addr len : Nat) : Bool := addr % GRANULE == 0 && len % GRANULE == 0

def granules (addr len : Nat) : List Nat :=
  (List.range (len / GRANULE)).map (fun i => addr + i * GRANULE)

namespace Pool

def default : Pool := ⟨0, 0, ∅⟩

def checkExpand (len align : Nat) : Except Refusal Unit :=
  if align ≠ 0 ∧ !isPowerOfTwo align then .error .invalid
  else if align ≠ 0 ∧ align < GRANULE then
    .error (.unmeasured "an Expand alignment below the 64 KiB granule")
  else if len % GRANULE ≠ 0 then .error .invalid
  else .ok ()

def expand (p : Pool) (len : Nat) : Pool := { p with capacity := saturatingAdd p.capacity len }

/-- Bytes set aside and not committed. -/
def free (p : Pool) : Nat := p.capacity - p.committed

def reserve (p : Pool) (base len : Nat) : Pool :=
  { p with reservations := p.reservations.insert base ⟨len, ∅⟩ }

/-- Empties the reservation that is exactly a range, and answers what was committed there. -/
def replace (p : Pool) (base len : Nat) : Option (List Nat × Pool) :=
  match p.reservations[base]? with
  | none => none
  | some held =>
      if held.len = len then
        let dropped := held.committed.sort
        some (dropped,
          { p with
            committed := p.committed - dropped.length * GRANULE
            reservations := p.reservations.insert base { held with committed := ∅ } })
      else none

def holder (p : Pool) (addr len : Nat) : Option (Nat × Reservation) :=
  match checkedAdd addr len with
  | none => none
  | some stop => (lastLE p.reservations addr).filter (fun e => stop ≤ saturatingAdd e.1 e.2.len)

def commit (p : Pool) (addr len : Nat) : Except Refusal (List Nat × Pool) :=
  if len = 0 then .error (.unmeasured "a commit of no bytes")
  else if !granular addr len then .error .invalid
  else
    match p.holder addr len with
    | none => .error (.unmeasured "a commit outside every pool reservation")
    | some (base, held) =>
        if (granules addr len).any (fun g => g ∈ held.committed) then
          .error (.unmeasured "a commit over a granule already committed")
        else if p.free < len then .error .noMemory
        else
          .ok (granules addr len,
            { p with
              committed := saturatingAdd p.committed len
              reservations := p.reservations.insert base
                { held with committed := held.committed ∪ (granules addr len).toFinset } })

def decommit (p : Pool) (addr len : Nat) : Except Refusal (List Nat × Pool) :=
  if len < GRANULE ∨ !granular addr len then .error .invalid
  else
    match p.holder addr len with
    | none => .error (.unmeasured "a decommit outside every pool reservation")
    | some (base, held) =>
        let dropped := (granules addr len).filter (fun g => g ∈ held.committed)
        .ok (dropped,
          { p with
            committed := p.committed - dropped.length * GRANULE
            reservations := p.reservations.insert base
              { held with committed := held.committed \ dropped.toFinset } })

end Pool

/-! ## The calls -/

/-- What a call answers the guest. -/
inductive Status where
  | ok
  | invalid
  | noMemory
  | fault
  | unimplemented
  deriving DecidableEq, Repr

def refused : Refusal → Status
  | .invalid => .invalid
  | .noMemory => .noMemory
  | .unmeasured _ => .unimplemented

def NO_ACCESS : Protection := ⟨false, false, false⟩

def READ_WRITE : Protection := ⟨true, true, false⟩

def MAP_FIXED : Nat := 0x10

def CONFLICT_RETRIES : Nat := 16

def protectionFromGuest (prot : Nat) : Protection :=
  let read := prot &&& 1 != 0
  let write := prot &&& 2 != 0
  let execute := prot &&& 4 != 0
  ⟨read || write || !execute, write, execute⟩

/-- The pool, the address space its reservations are made in, the mappings in it an unmap may
release, and the physical range memory is set aside from. -/
structure World where
  pool : Pool
  space : AddressSpace
  /-- `placed_by_mmap`, by base. -/
  placed : TreeMap Nat Nat
  map : Direct.DirectMemory

/-- What a reserve asks of the host: the unit of its placements, its answers to reservations
and to protections, the first free range above the hint, and where the next mapping may go at
each try. -/
structure Surroundings where
  slotUnit : Nat
  reserving : Nat → Nat → Except MemError Unit
  protecting : Nat → Except MemError Unit
  firstFree : Option Nat
  nextMappingBase : Nat → Nat

/-- Takes access away from granules, up to the first that is refused. -/
def protectEach (protecting : Nat → Except MemError Unit) : List Nat → AddressSpace →
    Bool × AddressSpace
  | [], space => (true, space)
  | granule :: rest, space =>
      match space.protect granule GRANULE NO_ACCESS (protecting granule) with
      | (.error _, space) => (false, space)
      | (.ok _, space) => protectEach protecting rest space

def placeNext (env : Surroundings) (len align : Nat) : Nat → AddressSpace →
    Option Nat × AddressSpace
  | 0, space => (none, space)
  | tries + 1, space =>
      match checkedNextMultipleOf (env.nextMappingBase tries) align with
      | none => (none, space)
      | some next =>
          match space.reserve next len NO_ACCESS (env.reserving next len) with
          | (.ok _, space) => (some next, space)
          | (.error _, space) => placeNext env len align tries space

def placeAnywhere (env : Surroundings) (hint len align : Nat) (space : AddressSpace) :
    Option Nat × AddressSpace :=
  match (if hint ≠ 0 then env.firstFree else none) with
  | none => placeNext env len align CONFLICT_RETRIES space
  | some free =>
      match space.reserve free len NO_ACCESS (env.reserving free len) with
      | (.ok _, space) => (some free, space)
      | (.error _, space) => placeNext env len align CONFLICT_RETRIES space

/-- How far a reserve comes before the pool is told of it: it is refused, it lands on exactly
a reservation, or it has a place. -/
inductive Placing where
  | refused (status : Status)
  | onto (len : Nat)
  | placed (base len : Nat)
  deriving DecidableEq, Repr

def placing (w : World) (hint len align flags out : Nat) (env : Surroundings) :
    Placing × AddressSpace :=
  if len = 0 then (.refused .invalid, w.space)
  else if out = 0 then (.refused .fault, w.space)
  else if flags &&& (bound - 1 - MAP_FIXED) ≠ 0 then (.refused .unimplemented, w.space)
  else if align ≠ 0 ∧ !isPowerOfTwo align then (.refused .unimplemented, w.space)
  else
    let align := max (max align GRANULE) env.slotUnit
    match checkedNextMultipleOf len GRANULE with
    | none => (.refused .invalid, w.space)
    | some len =>
        if flags &&& MAP_FIXED ≠ 0 then
          if hint % align ≠ 0 then (.refused .unimplemented, w.space)
          else if (w.pool.replace hint len).isSome then (.onto len, w.space)
          else
            match w.space.reserve hint len NO_ACCESS (env.reserving hint len) with
            | (.error _, space) => (.refused .unimplemented, space)
            | (.ok _, space) => (.placed hint len, space)
        else
          match placeAnywhere env hint len align w.space with
          | (none, space) => (.refused .noMemory, space)
          | (some base, space) => (.placed base len, space)

/-- `guest::host`, of a 64-bit host: the null address is refused and no other. -/
def hostAddress (at' : Nat) : Option Nat := if at' = 0 then none else some at'

def writeU64 (at' : Nat) : Bool := (hostAddress at').isSome

def writeBytes (at' : Nat) : Bool := (hostAddress at').isSome

def written (out : Nat) : Status := if writeU64 out then .ok else .fault

theorem written_of_ne {out : Nat} (h : out ≠ 0) : written out = .ok := by
  simp [written, writeU64, hostAddress, h]

/-- A mapping of a call's own: an `mmap`, or a direct-memory map placed afresh. One that the
file it is to hold cannot be read into is given back. -/
def map (w : World) (base len : Nat) (protection : Protection) (host : Except MemError Unit)
    (filled : Bool) : World × Status :=
  match w.space.reserve base len protection host with
  | (.error _, space) => ({ w with space := space }, .noMemory)
  | (.ok _, space) =>
      if filled then ({ w with space := space, placed := w.placed.insert base len }, .ok)
      else ({ w with space := (space.release base len).2 }, .noMemory)

/-- A range held in the address space that no unmap releases, such as one set aside by
`sceKernelReserveVirtualRange`. -/
def hold (w : World) (base len : Nat) (protection : Protection) (host : Except MemError Unit) :
    World × Status :=
  match w.space.reserve base len protection host with
  | (.error _, space) => ({ w with space := space }, .noMemory)
  | (.ok _, space) => ({ w with space := space }, .ok)

def protect (w : World) (base len : Nat) (protection : Protection)
    (host : Except MemError Unit) : World × Status :=
  match w.space.protect base len protection host with
  | (.error _, space) => ({ w with space := space }, .invalid)
  | (.ok _, space) => ({ w with space := space }, .ok)

def releaseOne (viewed : Nat → Bool) (w : World) (e : Nat × Nat) : World :=
  if viewed e.1 then w
  else
    match w.space.release e.1 e.2 with
    | (false, _) => w
    | (true, space) => { w with space := space, placed := w.placed.erase e.1 }

/-- Releases every placed mapping that lies whole inside a range, in the order a hash map is
walked. -/
def releaseMapping (walk : List (Nat × Nat) → List (Nat × Nat)) (viewed : Nat → Bool)
    (w : World) (address len : Nat) : World :=
  match checkedNextMultipleOf len guestPageSize with
  | none => w
  | some len =>
      let stop := saturatingAdd address len
      ((walk w.placed.toList).filter
        (fun e => address ≤ e.1 && saturatingAdd e.1 e.2 ≤ stop)).foldl (releaseOne viewed) w

def munmap (walk : List (Nat × Nat) → List (Nat × Nat)) (viewed : Nat → Bool) (w : World)
    (address len : Nat) : World × Status :=
  if address = 0 ∨ len = 0 then (w, .invalid) else (releaseMapping walk viewed w address len, .ok)

/-- The calls of a guest, each with what the host answers while it is carried out: the pool's,
what the other calls do to the address space, and what they do to the physical range. -/
inductive Call where
  | expand (searchStart searchEnd len align out : Nat)
  | reserve (hint len align flags out : Nat) (env : Surroundings)
  | commit (addr len prot flags : Nat) (opened closed : Except MemError Unit)
  | decommit (addr len flags : Nat) (protecting : Nat → Except MemError Unit)
  | map (base len : Nat) (protection : Protection) (host : Except MemError Unit) (filled : Bool)
  | hold (base len : Nat) (protection : Protection) (host : Except MemError Unit)
  | protect (base len : Nat) (protection : Protection) (host : Except MemError Unit)
  | munmap (walk : List (Nat × Nat) → List (Nat × Nat)) (viewed : Nat → Bool) (address len : Nat)
  | physical (map : Direct.DirectMemory)

def expand (w : World) (searchStart searchEnd len align out : Nat) : World × Status :=
  match Pool.checkExpand len align with
  | .error e => (w, refused e)
  | .ok () =>
      if len = 0 then (w, .ok)
      else
        match Direct.allocateAlignedFrom w.map searchStart len (max align GRANULE) 0 with
        | (map, none) => ({ w with map := map }, refused .noMemory)
        | (map, some start) =>
            if (checkedAdd start len).all (fun stop => searchEnd < stop) then
              ({ w with map := (Direct.release map start len).1 }, refused .noMemory)
            else
              ({ w with map := map, pool := w.pool.expand len },
                if out = 0 then .ok else written out)

def reserve (w : World) (hint len align flags out : Nat) (env : Surroundings) : World × Status :=
  match placing w hint len align flags out env with
  | (.refused status, space) => ({ w with space := space }, status)
  | (.onto len, space) =>
      match w.pool.replace hint len with
      | none => ({ w with space := space }, .unimplemented)
      | some (dropped, pool) =>
          match protectEach env.protecting dropped space with
          | (false, space) => ({ w with pool := pool, space := space }, .invalid)
          | (true, space) => ({ w with pool := pool, space := space }, written out)
  | (.placed base len, space) =>
      ({ w with pool := w.pool.reserve base len, space := space }, written out)

/-- Backs a range: opened for writing, zeroed granule by granule, and given the protection
asked for. -/
def backed (space : AddressSpace) (addr len prot : Nat) (newly : List Nat)
    (opened closed : Except MemError Unit) : Bool × AddressSpace :=
  match space.protect addr len READ_WRITE opened with
  | (.error _, space) => (false, space)
  | (.ok _, space) =>
      if newly.all writeBytes then
        match space.protect addr len (protectionFromGuest prot) closed with
        | (.error _, space) => (false, space)
        | (.ok _, space) => (true, space)
      else (false, space)

def commit (w : World) (addr len prot flags : Nat) (opened closed : Except MemError Unit) :
    World × Status :=
  if flags ≠ 0 then (w, refused (.unmeasured "a commit with flags"))
  else
    match w.pool.commit addr len with
    | .error e => (w, refused e)
    | .ok (newly, pool) =>
        match backed w.space addr len prot newly opened closed with
        | (true, space) => ({ w with pool := pool, space := space }, .ok)
        | (false, space) =>
            match pool.decommit addr len with
            | .error _ => ({ w with pool := pool, space := space }, .invalid)
            | .ok (_, pool) => ({ w with pool := pool, space := space }, .invalid)

def decommit (w : World) (addr len flags : Nat) (protecting : Nat → Except MemError Unit) :
    World × Status :=
  if flags ≠ 0 then (w, refused (.unmeasured "a decommit with flags"))
  else
    match w.pool.decommit addr len with
    | .error e => (w, refused e)
    | .ok (dropped, pool) =>
        match protectEach protecting dropped w.space with
        | (false, space) => ({ w with pool := pool, space := space }, .invalid)
        | (true, space) => ({ w with pool := pool, space := space }, .ok)

def step (w : World) : Call → World × Status
  | .expand searchStart searchEnd len align out => expand w searchStart searchEnd len align out
  | .reserve hint len align flags out env => reserve w hint len align flags out env
  | .commit addr len prot flags opened closed => commit w addr len prot flags opened closed
  | .decommit addr len flags protecting => decommit w addr len flags protecting
  | .map base len protection host filled => map w base len protection host filled
  | .hold base len protection host => hold w base len protection host
  | .protect base len protection host => protect w base len protection host
  | .munmap walk viewed address len => munmap walk viewed w address len
  | .physical map => ({ w with map := map }, .ok)

def pools : Machine World Call Status where
  step w call := ((step w call).1, [(step w call).2])

/-! ## Accounting -/

/-- The bytes counted are those of the granules committed, are no more than were set aside,
and every granule lies inside its reservation. -/
structure Accounted (p : Pool) : Prop where
  bytes : p.committed = GRANULE * total (fun r => r.committed.card) p.reservations
  within : p.committed ≤ p.capacity
  inside : ∀ (base : Nat) (r : Reservation), p.reservations[base]? = some r →
    ∀ g ∈ r.committed, base ≤ g ∧ g + GRANULE ≤ base + r.len

structure Same (p q : Pool) : Prop where
  capacity : p.capacity = q.capacity
  committed : p.committed = q.committed
  reservations : ∀ base : Nat, p.reservations[base]? = q.reservations[base]?

theorem same_refl (p : Pool) : Same p p := ⟨rfl, rfl, fun _ => rfl⟩

theorem length_granules (addr len : Nat) : (granules addr len).length = len / GRANULE := by
  simp [granules]

theorem nodup_granules (addr len : Nat) : (granules addr len).Nodup := by
  apply List.Nodup.map
  · intro i j hij
    have hpos : 0 < GRANULE := by decide
    exact Nat.eq_of_mul_eq_mul_right hpos (Nat.add_left_cancel hij)
  · exact List.nodup_range

theorem mem_granules {addr len g : Nat} (h : g ∈ granules addr len) :
    addr ≤ g ∧ g + GRANULE ≤ addr + len := by
  obtain ⟨i, hi, rfl⟩ := List.mem_map.mp h
  have hlt := List.mem_range.mp hi
  have hmul : (i + 1) * GRANULE ≤ len / GRANULE * GRANULE := Nat.mul_le_mul_right _ hlt
  have hle := Nat.div_mul_le_self len GRANULE
  rw [Nat.add_mul, Nat.one_mul] at hmul
  omega

theorem holder_some {p : Pool} {addr len base : Nat} {held : Reservation}
    (h : p.holder addr len = some (base, held)) :
    p.reservations[base]? = some held ∧ base ≤ addr ∧ addr + len ≤ base + held.len := by
  unfold Pool.holder at h
  split at h
  · cases h
  · next stop hstop =>
    obtain ⟨hlast, hle⟩ := Option.filter_eq_some_iff.mp h
    obtain ⟨hget, hbase⟩ := Nearest.last_mem hlast
    have hsum := checkedAdd_eq hstop
    have hsat : saturatingAdd base held.len ≤ base + held.len := Nat.min_le_left _ _
    simp only [decide_eq_true_eq] at hle hbase
    exact ⟨hget, hbase, by omega⟩

/-- What a reservation has committed is part of the bytes counted. -/
theorem Accounted.held_le {p : Pool} (h : Accounted p) {base : Nat} {held : Reservation}
    (hget : p.reservations[base]? = some held) : GRANULE * held.committed.card ≤ p.committed := by
  rw [h.bytes, total_erase (fun r : Reservation => r.committed.card) hget, Nat.mul_add]
  exact Nat.le_add_right _ _

/-- The reservation at a base given other granules, inside it, with the bytes counted
accordingly. -/
theorem Accounted.amend {p : Pool} (h : Accounted p) {base : Nat} {held : Reservation}
    (hget : p.reservations[base]? = some held) {granules : Finset Nat} {committed capacity : Nat}
    (hbytes : committed + GRANULE * held.committed.card = p.committed + GRANULE * granules.card)
    (hwithin : committed ≤ capacity)
    (hinside : ∀ g ∈ granules, base ≤ g ∧ g + GRANULE ≤ base + held.len) :
    Accounted ⟨capacity, committed,
      p.reservations.insert base { held with committed := granules }⟩ := by
  constructor
  · have htotal := total_replace (fun r : Reservation => r.committed.card) hget
      { held with committed := granules }
    have hold := h.bytes
    dsimp only at htotal ⊢
    have hscaled := congrArg (fun n => GRANULE * n) htotal
    simp only [Nat.mul_add] at hscaled
    omega
  · exact hwithin
  · intro base' r hr
    simp only [TreeMap.getElem?_insert, Nat.compare_eq_eq] at hr
    split at hr
    · next heq =>
      cases hr
      cases heq
      exact hinside
    · exact h.inside base' r hr

theorem commit_ok {p q : Pool} {addr len : Nat} {newly : List Nat}
    (hok : p.commit addr len = .ok (newly, q)) :
    ∃ base held, p.holder addr len = some (base, held) ∧ 0 < len ∧ granular addr len = true ∧
      (∀ g ∈ granules addr len, g ∉ held.committed) ∧ len ≤ p.free ∧
      q = ⟨p.capacity, saturatingAdd p.committed len, p.reservations.insert base
        { held with committed := held.committed ∪ (granules addr len).toFinset }⟩ := by
  unfold Pool.commit at hok
  split at hok
  · cases hok
  · next hlen =>
    split at hok
    · cases hok
    · next hgranular =>
      split at hok
      · cases hok
      · next base held hholder =>
        split at hok
        · cases hok
        · next hnone =>
          split at hok
          · cases hok
          · next hfree =>
            cases hok
            refine ⟨base, held, hholder, Nat.pos_of_ne_zero hlen, by simpa using hgranular, ?_,
              Nat.le_of_not_lt hfree, rfl⟩
            intro g hin hg
            apply hnone
            exact List.any_eq_true.mpr ⟨g, hin, by simpa using hg⟩

theorem dvd_of_granular {addr len : Nat} (h : granular addr len = true) : GRANULE ∣ len := by
  unfold granular at h
  simp only [Bool.and_eq_true, beq_iff_eq] at h
  exact Nat.dvd_of_mod_eq_zero h.2

theorem card_granules {addr len : Nat} (h : GRANULE ∣ len) :
    (granules addr len).toFinset.card * GRANULE = len := by
  rw [List.toFinset_card_of_nodup (nodup_granules addr len), length_granules]
  exact Nat.div_mul_cancel h

/-- Bytes that are free are counted exactly. -/
theorem saturatingAdd_free {p : Pool} {len : Nat} (h : Accounted p) (hcapacity : p.capacity < bound)
    (hfree : len ≤ p.free) : saturatingAdd p.committed len = p.committed + len := by
  have hwithin := h.within
  unfold Pool.free at hfree
  unfold saturatingAdd
  omega

theorem commit_accounted {p q : Pool} {addr len : Nat} {newly : List Nat} (h : Accounted p)
    (hcapacity : p.capacity < bound) (hok : p.commit addr len = .ok (newly, q)) :
    Accounted q ∧ q.capacity = p.capacity := by
  obtain ⟨base, held, hholder, -, hgrid, hnone, hfree, rfl⟩ := commit_ok hok
  obtain ⟨hget, hbase, hstop⟩ := holder_some hholder
  have hdisjoint : Disjoint held.committed (granules addr len).toFinset := by
    rw [Finset.disjoint_left]
    intro g hg hin
    exact hnone g (List.mem_toFinset.mp hin) hg
  have hexact := saturatingAdd_free h hcapacity hfree
  have hwithin := h.within
  unfold Pool.free at hfree
  refine ⟨h.amend hget ?_ ?_ ?_, rfl⟩
  · rw [hexact, Finset.card_union_of_disjoint hdisjoint, Nat.mul_add,
      Nat.mul_comm GRANULE (List.toFinset _).card, card_granules (dvd_of_granular hgrid)]
    omega
  · omega
  · intro g hg
    rcases Finset.mem_union.mp hg with hg | hg
    · exact h.inside base held hget g hg
    · have hin := mem_granules (List.mem_toFinset.mp hg)
      omega

theorem decommit_ok {p q : Pool} {addr len : Nat} {dropped : List Nat}
    (hok : p.decommit addr len = .ok (dropped, q)) :
    ∃ base held, p.holder addr len = some (base, held) ∧
      dropped = (granules addr len).filter (fun g => g ∈ held.committed) ∧
      q = ⟨p.capacity, p.committed - dropped.length * GRANULE, p.reservations.insert base
        { held with committed := held.committed \ dropped.toFinset }⟩ ∧
      GRANULE ≤ len ∧ granular addr len = true := by
  unfold Pool.decommit at hok
  split at hok
  · cases hok
  · next hvalid =>
    rw [not_or, Nat.not_lt, Bool.not_eq_true', Bool.not_eq_false] at hvalid
    split at hok
    · cases hok
    · next base held hholder =>
      cases hok
      exact ⟨base, held, hholder, rfl, rfl, hvalid⟩

/-- The granules dropped are committed ones, each dropped once. -/
theorem dropped_granules {addr len : Nat} {committed : Finset Nat} {dropped : List Nat}
    (h : dropped = (granules addr len).filter (fun g => g ∈ committed)) :
    dropped.toFinset ⊆ committed ∧ dropped.toFinset.card = dropped.length := by
  constructor
  · intro g hg
    rw [h, List.mem_toFinset, List.mem_filter] at hg
    exact of_decide_eq_true hg.2
  · rw [h]
    exact List.toFinset_card_of_nodup ((nodup_granules addr len).filter _)

theorem decommit_accounted {p q : Pool} {addr len : Nat} {dropped : List Nat} (h : Accounted p)
    (hok : p.decommit addr len = .ok (dropped, q)) : Accounted q ∧ q.capacity = p.capacity := by
  obtain ⟨base, held, hholder, hdropped, rfl, -, -⟩ := decommit_ok hok
  obtain ⟨hget, -, -⟩ := holder_some hholder
  obtain ⟨hsubset, hcount⟩ := dropped_granules hdropped
  have hcard : (held.committed \ dropped.toFinset).card = held.committed.card - dropped.length := by
    rw [Finset.card_sdiff_of_subset hsubset, hcount]
  have hlength : dropped.length ≤ held.committed.card := by
    rw [← hcount]
    exact Finset.card_le_card hsubset
  have hheld := h.held_le hget
  have hbytes := Nat.mul_le_mul_left GRANULE hlength
  have hwithin := h.within
  refine ⟨h.amend hget ?_ ?_ ?_, rfl⟩
  · rw [hcard, Nat.mul_sub, Nat.mul_comm dropped.length]
    omega
  · omega
  · intro g hg
    exact h.inside base held hget g (Finset.mem_sdiff.mp hg).1

theorem replace_some {p q : Pool} {base len : Nat} {dropped : List Nat}
    (hsome : p.replace base len = some (dropped, q)) :
    ∃ held, p.reservations[base]? = some held ∧ held.len = len ∧ dropped = held.committed.sort ∧
      q = ⟨p.capacity, p.committed - dropped.length * GRANULE,
        p.reservations.insert base { held with committed := ∅ }⟩ := by
  unfold Pool.replace at hsome
  split at hsome
  · cases hsome
  · next held hget =>
    split at hsome
    · next hlen =>
      cases hsome
      exact ⟨held, hget, hlen, rfl, rfl⟩
    · cases hsome

theorem replace_accounted {p q : Pool} {base len : Nat} {dropped : List Nat} (h : Accounted p)
    (hsome : p.replace base len = some (dropped, q)) : Accounted q ∧ q.capacity = p.capacity := by
  obtain ⟨held, hget, -, hdropped, rfl⟩ := replace_some hsome
  have hheld := h.held_le hget
  have hwithin := h.within
  refine ⟨h.amend hget ?_ ?_ ?_, rfl⟩
  · rw [hdropped, Finset.length_sort, Finset.card_empty, Nat.mul_comm held.committed.card]
    omega
  · omega
  · intro g hg
    simp at hg

/-- Granules dropped show in the bytes counted. -/
theorem Accounted.not_same {p q : Pool} (h : Accounted p) {base : Nat} {held : Reservation}
    (hget : p.reservations[base]? = some held) {dropped : List Nat}
    (hlength : dropped.length ≤ held.committed.card) (hsome : dropped ≠ [])
    (hq : q.committed = p.committed - dropped.length * GRANULE) : ¬ Same p q := by
  intro hsame
  have hheld := h.held_le hget
  have hpos : 0 < dropped.length := List.length_pos_of_ne_nil hsome
  have heq := hsame.committed
  have hgranule : GRANULE = 65536 := rfl
  rw [hgranule] at hheld hq
  omega

theorem reserve_accounted {p : Pool} {base : Nat} (h : Accounted p) (len : Nat)
    (hnew : p.reservations[base]? = none) : Accounted (p.reserve base len) := by
  constructor
  · unfold Pool.reserve
    dsimp only
    rw [h.bytes, total_insert _ hnew, Finset.card_empty, Nat.zero_add]
  · exact h.within
  · intro base' r hr
    simp only [Pool.reserve, TreeMap.getElem?_insert, Nat.compare_eq_eq] at hr
    split at hr
    · cases hr
      intro g hg
      simp at hg
    · exact h.inside base' r hr

theorem expand_accounted {p : Pool} (h : Accounted p) (hcapacity : p.capacity < bound) (len : Nat) :
    Accounted (p.expand len) := by
  refine ⟨h.bytes, ?_, h.inside⟩
  have hwithin := h.within
  unfold Pool.expand saturatingAdd
  dsimp only
  omega

/-- The reservation that holds a range goes on holding it when its granules change. -/
theorem holder_insert {p q : Pool} {addr len base : Nat} {held : Reservation}
    (h : p.holder addr len = some (base, held)) {committed : Finset Nat}
    (hq : q.reservations = p.reservations.insert base { held with committed := committed }) :
    q.holder addr len = some (base, { held with committed := committed }) := by
  unfold Pool.holder at h ⊢
  split at h
  · cases h
  · next stop hstop =>
    obtain ⟨hlast, hle⟩ := Option.filter_eq_some_iff.mp h
    obtain ⟨hget, hbase⟩ := Nearest.last_mem hlast
    have hnext : lastLE q.reservations addr = some (base, { held with committed := committed }) := by
      apply Nearest.last_eq_some
      · rw [hq]
        simp
      · exact hbase
      · intro k v hv hk
        rw [hq] at hv
        simp only [TreeMap.getElem?_insert, Nat.compare_eq_eq] at hv
        split at hv
        · next heq => exact Nat.le_of_eq heq.symm
        · exact Nearest.le_last hlast hv hk
    rw [hnext]
    exact Option.filter_eq_some_iff.mpr ⟨rfl, hle⟩

theorem commit_then_decommit {p q r : Pool} {addr len : Nat} {newly dropped : List Nat}
    (h : Accounted p) (hcapacity : p.capacity < bound)
    (hcommit : p.commit addr len = .ok (newly, q))
    (hdecommit : q.decommit addr len = .ok (dropped, r)) : Same p r := by
  obtain ⟨base, held, hholder, -, hgrid, hnone, hfree, rfl⟩ := commit_ok hcommit
  obtain ⟨base', held', hholder', hdropped, rfl, -, -⟩ := decommit_ok hdecommit
  rw [holder_insert hholder rfl] at hholder'
  cases hholder'
  obtain ⟨hget, -, -⟩ := holder_some hholder
  have hall : dropped = granules addr len := by
    rw [hdropped, List.filter_eq_self]
    intro g hg
    exact decide_eq_true (Finset.mem_union_right _ (List.mem_toFinset.mpr hg))
  have hback : (held.committed ∪ (granules addr len).toFinset) \ (granules addr len).toFinset =
      held.committed := by
    apply Finset.union_sdiff_cancel_right
    rw [Finset.disjoint_left]
    intro g hg hin
    exact hnone g (List.mem_toFinset.mp hin) hg
  constructor
  · rfl
  · dsimp only
    rw [saturatingAdd_free h hcapacity hfree, hall, length_granules,
      Nat.div_mul_cancel (dvd_of_granular hgrid)]
    omega
  · intro k
    dsimp only
    rw [hall, hback]
    simp only [TreeMap.getElem?_insert, Nat.compare_eq_eq]
    by_cases hk : base = k
    · rw [if_pos hk, ← hk, hget]
    · rw [if_neg hk, if_neg hk]

/-- What was committed can be handed back. -/
theorem decommit_of_commit {p q : Pool} {addr len : Nat} {newly : List Nat}
    (hcommit : p.commit addr len = .ok (newly, q)) :
    ∃ dropped r, q.decommit addr len = .ok (dropped, r) := by
  obtain ⟨base, held, hholder, hlen, hgrid, -, -, rfl⟩ := commit_ok hcommit
  have hgranule := Nat.le_of_dvd hlen (dvd_of_granular hgrid)
  unfold Pool.decommit
  rw [if_neg (by simp [hgrid, hgranule]), holder_insert hholder rfl]
  exact ⟨_, _, rfl⟩

theorem accounted_default : Accounted Pool.default where
  bytes := rfl
  within := Nat.le_refl 0
  inside := by
    intro base r hr
    simp [Pool.default] at hr

end Orbistoun.Kernel.Pool
